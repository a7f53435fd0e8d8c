import Rustper.Library.RawExposition
import Rustper.Metrics

/-!
The rendered counters, read by the grammar of the exposition format. Component ids stand in
the text as they are, while the format has escapes in label values, so the text is read
back just when no id has a character that would need one.
-/
namespace Rustper

open Exposition

namespace Series

variable {α : Type}

/-- The sample of each registered component. -/
def samples (label : String) (components : ComponentMap α) (series : Series α) : List Sample :=
  components.entries.map (fun entry =>
    ⟨series.metric.toList, [(label.toList, entry.1.toList)], .finite (series.extract entry.2),
      none⟩)

def Introduced (series : Series α) (entries : List Entry) : Prop :=
  Exposition.Introduced series.metric.toList series.help.toList series.kind.toList entries

/-- What the format asks of the parts of a series. -/
def WellFormed (series : Series α) : Prop :=
  validName series.metric.toList = true ∧ series.kind.toList ∈ kinds ∧
    ('\\' ∉ series.help.toList ∧ '"' ∉ series.help.toList ∧ '\n' ∉ series.help.toList) ∧
    skip series.help.toList = series.help.toList

instance (series : Series α) : Decidable series.WellFormed :=
  inferInstanceAs (Decidable (_ ∧ _ ∧ _ ∧ _))

def family (label : String) (components : ComponentMap α) (series : Series α) : Family where
  name := series.metric.toList
  help := series.help.toList
  kind := series.kind.toList
  label := label.toList
  samples := components.entries.map (fun entry => (entry.1.toList, series.extract entry.2))

theorem family_valid {label : String} (components : ComponentMap α) {series : Series α}
    (hlabel : validLabel label.toList = true) (h : series.WellFormed) :
    (series.family label components).Valid :=
  ⟨h.1, hlabel, h.2.1, h.2.2.1, h.2.2.2⟩

theorem samples_eq (label : String) (components : ComponentMap α) (series : Series α) :
    series.samples label components =
      (series.family label components).samples.map (series.family label components).sample := by
  simp only [samples, family, List.map_map]
  rfl

theorem family_values_nodup (label : String) (components : ComponentMap α) (series : Series α) :
    ((series.family label components).samples.map Prod.fst).Nodup := by
  have hvalues : (series.family label components).samples.map Prod.fst =
      components.ids.map String.toList := by
    simp only [family, ComponentMap.ids, List.map_map]
    rfl
  rw [hvalues]
  exact components.ids_nodup.map (fun _ _ h => String.toList_inj.mp h)

theorem clean_iff_ids (label : String) (components : ComponentMap α) (series : Series α) :
    (∀ x ∈ (series.family label components).samples, Clean x.1) ↔
      ∀ id ∈ components.ids, Clean id.toList := by
  simp only [family, ComponentMap.ids, List.forall_mem_map]

end Series

namespace Snapshot

/-- One sample for each series and each component of its kind. -/
def samples (snapshot : Snapshot) : List Sample :=
  sourceSeries.flatMap (Series.samples "source" snapshot.sources) ++
    sinkSeries.flatMap (Series.samples "sink" snapshot.sinks)

/-- The entries have exactly these samples, each behind the lines of its series. -/
def DescribedBy (snapshot : Snapshot) (entries : List Entry) : Prop :=
  (samplesOf entries).Perm snapshot.samples ∧
    (∀ series ∈ sourceSeries, series.Introduced entries) ∧
    ∀ series ∈ sinkSeries, series.Introduced entries

def families (snapshot : Snapshot) : List Family :=
  sourceSeries.map (Series.family "source" snapshot.sources) ++
    sinkSeries.map (Series.family "sink" snapshot.sinks)

end Snapshot

section text

variable {α : Type} (label : String) (components : ComponentMap α) (series : Series α)

theorem toList_writeSample (out : String) (entry : String × α) :
    (writeSample label series out entry).toList =
      out.toList ++ ((series.family label components).sampleLine
        (entry.1.toList, series.extract entry.2) ++ ['\n']) := by
  have hopen : "\x7b".toList = ['{'] := by decide
  have hequals : "=\"".toList = ['=', '"'] := by decide
  have hclose : "\"\x7d ".toList = ['"', '}', ' '] := by decide
  have hend : "\n".toList = ['\n'] := by decide
  have hvalue : (toString (series.extract entry.2)).toList =
      Nat.toDigits 10 (series.extract entry.2) := Nat.toList_repr
  simp only [writeSample, String.toList_append, hopen, hequals, hclose, hend, hvalue,
    Family.sampleLine, Series.family, List.append_assoc, List.cons_append, List.nil_append]

theorem toList_writeSamples (entries : List (String × α)) (out : String) :
    (entries.foldl (writeSample label series) out).toList =
      out.toList ++ Lines.join '\n' (entries.map (fun entry =>
        (series.family label components).sampleLine
          (entry.1.toList, series.extract entry.2))) := by
  induction entries generalizing out with
  | nil => simp
  | cons entry entries ih =>
    rw [List.foldl_cons, ih, toList_writeSample label components, List.map_cons,
      Lines.join_cons]
    simp only [List.append_assoc, List.cons_append, List.nil_append]

theorem toList_writeSeries (out : String) :
    (writeSeries label components out series).toList =
      out.toList ++ print [series.family label components] := by
  have hhelp : "# HELP ".toList = '#' :: ' ' :: (helpKeyword ++ [' ']) := by decide
  have htype : "# TYPE ".toList = '#' :: ' ' :: (typeKeyword ++ [' ']) := by decide
  have hblank : " ".toList = [' '] := by decide
  have hend : "\n".toList = ['\n'] := by decide
  rw [writeSeries, toList_writeSamples label components]
  simp only [String.toList_append, hhelp, htype, hblank, hend, print, Family.printed,
    Family.helpLine, Family.typeLine, Series.family, List.flatMap_singleton, List.map_cons,
    List.map_map, Lines.join_cons, List.append_assoc, List.cons_append, List.nil_append]
  rfl

theorem toList_writeAll (table : List (Series α)) (out : String) :
    (table.foldl (writeSeries label components) out).toList =
      out.toList ++ print (table.map (Series.family label components)) := by
  induction table generalizing out with
  | nil => simp [print]
  | cons series table ih =>
    rw [List.foldl_cons, ih, toList_writeSeries, List.map_cons, List.append_assoc,
      ← print_cons (series.family label components)]

end text

theorem renderPrometheus_toList (m : Metrics) :
    m.renderPrometheus.toList = print m.snapshot.families := by
  have hempty : "".toList = [] := by decide
  rw [Metrics.renderPrometheus]
  simp only [toList_writeAll, hempty, List.nil_append]
  rw [Snapshot.families, print_append]

theorem sourceSeries_wellFormed : ∀ series ∈ sourceSeries, series.WellFormed := by decide

theorem sinkSeries_wellFormed : ∀ series ∈ sinkSeries, series.WellFormed := by decide

theorem metrics_nodup : (sourceSeries.map Series.metric ++ sinkSeries.map Series.metric).Nodup := by
  decide

theorem label_valid : validLabel "source".toList = true ∧ validLabel "sink".toList = true := by
  decide

namespace Snapshot

variable (snapshot : Snapshot)

theorem families_valid : ∀ f ∈ snapshot.families, f.Valid := by
  intro f hf
  rcases List.mem_append.mp hf with hf | hf
  · obtain ⟨series, hseries, rfl⟩ := List.mem_map.mp hf
    exact series.family_valid _ label_valid.1 (sourceSeries_wellFormed series hseries)
  · obtain ⟨series, hseries, rfl⟩ := List.mem_map.mp hf
    exact series.family_valid _ label_valid.2 (sinkSeries_wellFormed series hseries)

theorem families_nodup : (snapshot.families.map Family.name).Nodup := by
  have hnames : snapshot.families.map Family.name =
      (sourceSeries.map Series.metric ++ sinkSeries.map Series.metric).map String.toList := by
    simp only [families, List.map_append, List.map_map]
    rfl
  rw [hnames]
  exact metrics_nodup.map (fun _ _ h => String.toList_inj.mp h)

theorem families_values_nodup :
    ∀ f ∈ snapshot.families, (f.samples.map Prod.fst).Nodup := by
  intro f hf
  rcases List.mem_append.mp hf with hf | hf <;> obtain ⟨series, -, rfl⟩ := List.mem_map.mp hf
  · exact series.family_values_nodup _ _
  · exact series.family_values_nodup _ _

theorem samples_eq :
    snapshot.samples = snapshot.families.flatMap (fun f => f.samples.map f.sample) := by
  simp only [samples, families, List.flatMap_append, List.flatMap_map]
  rw [funext (Series.samples_eq "source" snapshot.sources),
    funext (Series.samples_eq "sink" snapshot.sinks)]

theorem introduced_iff (entries : List Entry) :
    (∀ f ∈ snapshot.families, Introduced f.name f.help f.kind entries) ↔
      (∀ series ∈ sourceSeries, series.Introduced entries) ∧
        ∀ series ∈ sinkSeries, series.Introduced entries := by
  simp only [families, List.forall_mem_append, List.forall_mem_map]
  exact Iff.rfl

theorem clean_iff : (∀ f ∈ snapshot.families, ∀ x ∈ f.samples, Clean x.1) ↔
    ∀ id, id ∈ snapshot.sources.ids ∨ id ∈ snapshot.sinks.ids → Clean id.toList := by
  simp only [families, List.forall_mem_append, List.forall_mem_map, Series.clean_iff_ids]
  constructor
  · intro h id hid
    rcases hid with hid | hid
    · exact h.1 _ List.mem_cons_self id hid
    · exact h.2 _ List.mem_cons_self id hid
  · intro h
    exact ⟨fun _ _ id hid => h id (Or.inl hid), fun _ _ id hid => h id (Or.inr hid)⟩

end Snapshot

/-- The text is read, and as what the snapshot says. -/
def Decodable (m : Metrics) : Prop :=
  ∃ entries, read m.renderPrometheus.toList = some entries ∧ m.snapshot.DescribedBy entries

theorem decodable_iff_clean (m : Metrics) :
    Decodable m ↔ ∀ f ∈ m.snapshot.families, ∀ x ∈ f.samples, Clean x.1 := by
  rw [← read_print_iff m.snapshot.families_valid m.snapshot.families_nodup
    m.snapshot.families_values_nodup]
  simp only [Decodable, renderPrometheus_toList, Snapshot.DescribedBy, Snapshot.samples_eq,
    Snapshot.introduced_iff]

/-- Rendering is decodable just when no registered id has a backslash, a double quote or a
line feed. -/
theorem rendering_decodable_iff (m : Metrics) :
    Decodable m ↔ ∀ id, id ∈ m.sources.ids ∨ id ∈ m.sinks.ids →
      '\\' ∉ id.toList ∧ '"' ∉ id.toList ∧ '\n' ∉ id.toList := by
  rw [decodable_iff_clean, Snapshot.clean_iff]
  simp only [Metrics.snapshot, ComponentMap.ids_map]
  exact Iff.rfl

/-- An id that a quoted key of the configuration can have. -/
theorem quotedId_not_decodable : ¬ Decodable (Metrics.new ["a\"b"] ["sink"]) := by
  rw [decodable_iff_clean, Snapshot.clean_iff]
  intro h
  have hid : "a\"b" ∈ (Metrics.new ["a\"b"] ["sink"]).snapshot.sources.ids := by
    rw [Metrics.snapshot, ComponentMap.ids_map]
    exact ComponentMap.mem_ids_register.mpr List.mem_cons_self
  exact (h _ (Or.inl hid)).2.1 (by decide)

end Rustper
