import Hogl.Data.Sorting

namespace Hogl.Data

/-! # Sets ordered by a comparison

`std::set` keeps its elements in strict order.  An element is not inserted if
the set has an equivalent one, that is, one which is neither smaller nor
larger.
-/

section Sets

variable {α : Type} (less : α → α → Bool)

def setInsert (item : α) : List α → List α
  | [] => [item]
  | other :: set =>
      if less item other then item :: other :: set
      else if less other item then other :: setInsert item set
      else other :: set

/-- The set that a row of insertions builds. -/
def setCollect (set : List α) (items : List α) : List α :=
  items.foldl (fun set item => setInsert less item set) set

variable {less}

theorem StrictWeak.trans (weak : StrictWeak less) {a b c : α} (first : less a b = true)
    (second : less b c = true) : less a c = true := by
  rcases weak.cotrans a c b first with done | back
  · exact done
  · rw [weak.asymm b c second] at back
    cases back

theorem StrictWeak.irrefl (weak : StrictWeak less) (item : α) : less item item = false := by
  cases same : less item item with
  | false => rfl
  | true => exact same.symm.trans (weak.asymm item item same)

theorem mem_setInsert {item member : α} {set : List α} (inserted : member ∈ setInsert less item set) :
    member = item ∨ member ∈ set := by
  induction set with
  | nil => exact .inl (List.mem_singleton.mp inserted)
  | cons other set ih =>
      rw [setInsert] at inserted
      split at inserted
      · exact List.mem_cons.mp inserted
      · split at inserted
        · rcases List.mem_cons.mp inserted with rfl | behind
          · exact .inr List.mem_cons_self
          · exact (ih behind).imp id (List.mem_cons_of_mem _)
        · exact .inr inserted

theorem setInsert_sorted (weak : StrictWeak less) (item : α) {set : List α}
    (sorted : set.Pairwise fun first second => less first second = true) :
    (setInsert less item set).Pairwise fun first second => less first second = true := by
  induction set with
  | nil => exact List.pairwise_singleton _ _
  | cons other set ih =>
      obtain ⟨below, rest⟩ := List.pairwise_cons.mp sorted
      rw [setInsert]
      split
      · rename_i smaller
        refine List.pairwise_cons.mpr ⟨?_, sorted⟩
        intro member inside
        rcases List.mem_cons.mp inside with rfl | behind
        · exact smaller
        · exact weak.trans smaller (below member behind)
      · split
        · rename_i larger
          refine List.pairwise_cons.mpr ⟨?_, ih rest⟩
          intro member inside
          rcases mem_setInsert inside with rfl | behind
          · exact larger
          · exact below member behind
        · exact sorted

/-- An element that is equivalent to none of the set is inserted. -/
theorem setInsert_perm {item : α} {set : List α}
    (apart : ∀ other ∈ set, less other item = true ∨ less item other = true) :
    (setInsert less item set).Perm (item :: set) := by
  induction set with
  | nil => exact .refl _
  | cons other set ih =>
      rw [setInsert]
      split
      · exact .refl _
      · rename_i notSmaller
        rw [if_pos ((apart other List.mem_cons_self).resolve_right notSmaller)]
        exact ((ih fun member inside => apart member (List.mem_cons_of_mem _ inside)).cons other).trans
          (.swap item other set)

theorem setCollect_sorted (weak : StrictWeak less) (items : List α) {set : List α}
    (sorted : set.Pairwise fun first second => less first second = true) :
    (setCollect less set items).Pairwise fun first second => less first second = true := by
  induction items generalizing set with
  | nil => exact sorted
  | cons item items ih => exact ih (setInsert_sorted weak item sorted)

theorem setCollect_append (set first second : List α) :
    setCollect less set (first ++ second) = setCollect less (setCollect less set first) second :=
  List.foldl_append

/-- A row of insertions keeps every element exactly if no two are equivalent. -/
theorem setCollect_perm_iff (weak : StrictWeak less) (items : List α) :
    (setCollect less [] items).Perm items ↔
      items.Pairwise fun first second => less first second = true ∨ less second first = true := by
  constructor
  · intro perm
    rw [← perm.pairwise_iff Or.symm]
    exact (setCollect_sorted weak items List.Pairwise.nil).imp Or.inl
  · intro apart
    induction items using List.reverseRecOn with
    | nil => exact .refl _
    | append_singleton items last ih =>
        obtain ⟨before, -, now⟩ := List.pairwise_append.mp apart
        have collected := ih before
        rw [setCollect_append]
        have distinct : ∀ other ∈ setCollect less [] items,
            less other last = true ∨ less last other = true := fun other inside =>
          now other (collected.mem_iff.mp inside) last (List.mem_singleton.mpr rfl)
        exact (setInsert_perm distinct).trans
          ((collected.cons last).trans (List.perm_append_singleton last items).symm)

end Sets

end Hogl.Data
