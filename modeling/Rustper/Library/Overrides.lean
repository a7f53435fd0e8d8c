import Mathlib.Data.List.AList

/-!
Maps into which the entries of another map are put one by one. The keys of the other map
have its values in the end, in whatever order its entries come, and the rest is kept.
-/
namespace Overrides

variable {κ β γ : Type*} [DecidableEq κ]

theorem lookup_foldl_insert {entries : List (Sigma fun _ : κ => β)} (hnodup : entries.NodupKeys)
    (f : (Sigma fun _ : κ => β) → γ) (base : AList fun _ : κ => γ) (k : κ) :
    (entries.foldl (fun m entry => m.insert entry.1 (f entry)) base).lookup k =
      (entries.dlookup k).elim (base.lookup k) (fun v => some (f ⟨k, v⟩)) := by
  induction entries generalizing base with
  | nil => rfl
  | cons first rest ih =>
    obtain ⟨k', v'⟩ := first
    rw [List.nodupKeys_cons] at hnodup
    rw [List.foldl_cons, ih hnodup.2]
    by_cases hk : k = k'
    · subst hk
      have hrest : rest.dlookup k = none := List.dlookup_eq_none.mpr hnodup.1
      rw [hrest, List.dlookup_cons_eq]
      exact AList.lookup_insert base
    · have hskip : (⟨k', v'⟩ :: rest : List (Sigma fun _ : κ => β)).dlookup k =
          rest.dlookup k :=
        List.dlookup_cons_ne _ _ hk
      rw [hskip, AList.lookup_insert_ne hk]

/-- A key of the entries has its own value in the end. -/
theorem lookup_foldl_of_mem {entries : List (Sigma fun _ : κ => β)} (hnodup : entries.NodupKeys)
    (f : (Sigma fun _ : κ => β) → γ) (base : AList fun _ : κ => γ)
    {entry : Sigma fun _ : κ => β} (hentry : entry ∈ entries) :
    (entries.foldl (fun m entry => m.insert entry.1 (f entry)) base).lookup entry.1 =
      some (f entry) := by
  have hlookup : entries.dlookup entry.1 = some entry.2 :=
    (List.mem_dlookup_iff hnodup).mpr hentry
  rw [lookup_foldl_insert hnodup, hlookup]
  rfl

/-- The entries of a map win over what was there. -/
theorem lookup_foldl_entries (overrides base : AList fun _ : κ => β) (k : κ) :
    (overrides.entries.foldl (fun m entry => m.insert entry.1 entry.2) base).lookup k =
      (overrides.lookup k).or (base.lookup k) := by
  rw [lookup_foldl_insert overrides.nodupKeys (fun entry => entry.2)]
  show (overrides.lookup k).elim _ _ = _
  cases overrides.lookup k <;> rfl

end Overrides
