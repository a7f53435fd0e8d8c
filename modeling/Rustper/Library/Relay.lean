import Mathlib.Algebra.Order.Group.Int
import Mathlib.Logic.Function.Basic

/-!
What a relay between logs and stores is for, with nothing of how it does it. Sources have
partitioned logs, each partition with a mark that says up to where it is done, and stores
hold copies of the records. A mark moves only over records that have their copies in every
store the source feeds, and what is put into a store is the copy of a record.
-/
namespace Relay

variable {Source Store Partition Record Item : Type*}

/-- Which stores a source feeds and what the copy of a record is there; a store may have no
room for one. -/
structure Spec (Source Store Partition Record Item : Type*) where
  feeds : Source → Store → Prop
  partition : Record → Partition
  offset : Record → ℤ
  copy : Source → Store → Record → Option Item

structure State (Source Store Partition Record Item : Type*) where
  log : Source → Partition → List Record
  mark : Source → Partition → Option ℤ
  held : Store → List Item

def State.start : State Source Store Partition Record Item where
  log := fun _ _ => []
  mark := fun _ _ => none
  held := fun _ => []

/-- The item is the copy of a record of a source that feeds the store. -/
def Genuine (spec : Spec Source Store Partition Record Item)
    (x : State Source Store Partition Record Item) (i : Store) (item : Item) : Prop :=
  ∃ k, spec.feeds k i ∧ ∃ r ∈ x.log k (spec.partition r), spec.copy k i r = some item

/-- The offset is not beyond the log, and what lies below it has been copied. -/
structure Copied (spec : Spec Source Store Partition Record Item)
    (x : State Source Store Partition Record Item) (k : Source) (p : Partition) (o : ℤ) :
    Prop where
  bounded : ∃ r ∈ x.log k p, o ≤ spec.offset r + 1
  below : ∀ r ∈ x.log k p, spec.offset r < o → ∀ i, spec.feeds k i →
    ∀ item ∈ spec.copy k i r, item ∈ x.held i

variable {spec : Spec Source Store Partition Record Item}
  {x y : State Source Store Partition Record Item}

theorem Genuine.mono {i : Store} {item : Item} (h : Genuine spec x i item)
    (hlog : ∀ k p, x.log k p ⊆ y.log k p) : Genuine spec y i item := by
  obtain ⟨k, hfeeds, r, hr, hcopy⟩ := h
  exact ⟨k, hfeeds, r, hlog k _ hr, hcopy⟩

/-- The marks are safe, and the stores hold nothing else than copies. -/
structure Inv (spec : Spec Source Store Partition Record Item)
    (x : State Source Store Partition Record Item) : Prop where
  marked : ∀ k p o, x.mark k p = some o → Copied spec x k p o
  genuine : ∀ i, ∀ item ∈ x.held i, Genuine spec x i item

theorem start_inv (spec : Spec Source Store Partition Record Item) :
    Inv spec State.start where
  marked := by simp [State.start]
  genuine := by simp [State.start]

section put

variable [DecidableEq Store]

def State.put (x : State Source Store Partition Record Item) (i : Store) (items : List Item) :
    State Source Store Partition Record Item :=
  { x with held := Function.update x.held i (x.held i ++ items) }

theorem mem_put {i j : Store} {items : List Item} {item : Item} :
    item ∈ (x.put i items).held j ↔ item ∈ x.held j ∨ (j = i ∧ item ∈ items) := by
  by_cases hj : j = i
  · subst hj
    simp [State.put]
  · simp [State.put, hj]

theorem put_nil (i : Store) : x.put i [] = x := by
  simp [State.put]

theorem Copied.put {k : Source} {p : Partition} {o : ℤ} (h : Copied spec x k p o) (i : Store)
    (items : List Item) : Copied spec (x.put i items) k p o where
  bounded := h.bounded
  below := fun r hr hlt j hfeeds item hitem =>
    mem_put.mpr (Or.inl (h.below r hr hlt j hfeeds item hitem))

end put

section log

variable [DecidableEq Source] [DecidableEq Partition]

def State.append (spec : Spec Source Store Partition Record Item)
    (x : State Source Store Partition Record Item) (k : Source) (r : Record) :
    State Source Store Partition Record Item :=
  { x with
    log := Function.update x.log k (Function.update (x.log k) (spec.partition r)
      (x.log k (spec.partition r) ++ [r])) }

def State.setMark (x : State Source Store Partition Record Item) (k : Source) (p : Partition)
    (o : ℤ) : State Source Store Partition Record Item :=
  { x with mark := Function.update x.mark k (Function.update (x.mark k) p (some o)) }

theorem mem_append {k l : Source} {p : Partition} {q r : Record} :
    q ∈ (x.append spec k r).log l p ↔
      q ∈ x.log l p ∨ (l = k ∧ p = spec.partition r ∧ q = r) := by
  by_cases hl : l = k
  · subst hl
    by_cases hp : p = spec.partition r
    · subst hp
      simp [State.append]
    · simp [State.append, hp]
  · simp [State.append, hl]

theorem setMark_eq {k l : Source} {p q : Partition} {o o' : ℤ}
    (h : (x.setMark k p o).mark l q = some o') :
    (l = k ∧ q = p ∧ o' = o) ∨ x.mark l q = some o' := by
  by_cases hl : l = k
  · subst hl
    by_cases hq : q = p
    · subst hq
      simp only [State.setMark, Function.update_self, Option.some.injEq] at h
      exact Or.inl ⟨rfl, rfl, h.symm⟩
    · exact Or.inr (by simpa [State.setMark, hq] using h)
  · exact Or.inr (by simpa [State.setMark, hl] using h)

/-- A record that is appended lies above every offset of the log. -/
theorem Copied.append {k l : Source} {p : Partition} {r : Record} {o : ℤ}
    (h : Copied spec x l p o)
    (hfits : ∀ q ∈ x.log k (spec.partition r), spec.offset q < spec.offset r) :
    Copied spec (x.append spec k r) l p o := by
  obtain ⟨last, hlast, hle⟩ := h.bounded
  refine ⟨⟨last, mem_append.mpr (Or.inl hlast), hle⟩, ?_⟩
  intro q hq hlt
  rcases mem_append.mp hq with hq | ⟨rfl, rfl, rfl⟩
  · exact h.below q hq hlt
  · have := hfits last hlast
    omega

end log

variable [DecidableEq Source] [DecidableEq Store] [DecidableEq Partition]

inductive Step (spec : Spec Source Store Partition Record Item)
    (x : State Source Store Partition Record Item) :
    State Source Store Partition Record Item → Prop
  | append (k : Source) (r : Record)
      (hfits : ∀ q ∈ x.log k (spec.partition r), spec.offset q < spec.offset r) :
      Step spec x (x.append spec k r)
  | put (i : Store) (items : List Item) (hgenuine : ∀ item ∈ items, Genuine spec x i item) :
      Step spec x (x.put i items)
  | mark (k : Source) (p : Partition) (o : ℤ) (hcopied : Copied spec x k p o) :
      Step spec x (x.setMark k p o)

theorem Step.inv (hstep : Step spec x y) (h : Inv spec x) : Inv spec y := by
  cases hstep with
  | append k r hfits =>
    refine ⟨fun l p o ho => (h.marked l p o ho).append hfits, fun i item hitem => ?_⟩
    exact (h.genuine i item hitem).mono fun l p q hq => mem_append.mpr (Or.inl hq)
  | put i items hgenuine =>
    refine ⟨fun l p o ho => (h.marked l p o ho).put i items, fun j item hitem => ?_⟩
    have hput : Genuine spec x j item := by
      rcases mem_put.mp hitem with hheld | ⟨rfl, hnew⟩
      · exact h.genuine j item hheld
      · exact hgenuine item hnew
    exact hput.mono fun l p => List.Subset.refl _
  | mark k p o hcopied =>
    refine ⟨fun l q o' ho => ?_, fun i item hitem => ?_⟩
    · have hmarked : Copied spec x l q o' := by
        rcases setMark_eq ho with ⟨rfl, rfl, rfl⟩ | ho
        · exact hcopied
        · exact h.marked l q o' ho
      exact ⟨hmarked.bounded, hmarked.below⟩
    · exact (h.genuine i item hitem).mono fun l p => List.Subset.refl _

end Relay
