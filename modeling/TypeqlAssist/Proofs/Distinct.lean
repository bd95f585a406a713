import Mathlib.Data.List.Nodup
import TypeqlAssist.Distinct

/-!
# Distinct elements

Taking the distinct elements of a list loses no key and keeps none twice, and can be done part by
part.
-/

namespace TypeqlAssist

variable {α β : Type} [BEq β] {key : α → β}

/-- What is kept was in the list. -/
lemma distinctBy_subset (as : List α) : distinctBy key as ⊆ as := by
  induction as with
  | nil => exact List.Subset.refl []
  | cons a as ih =>
    refine List.cons_subset_cons a fun b hb => ?_
    exact ih (List.mem_filter.mp hb).1

/-- Of the elements behind others, those with other keys are kept. -/
lemma distinctBy_append (as bs : List α) :
    distinctBy key (as ++ bs) =
      distinctBy key as ++ (distinctBy key bs).filter fun b => as.all fun a => key b != key a := by
  induction as with
  | nil => simp [distinctBy]
  | cons a as ih =>
    rw [List.cons_append, distinctBy, ih, List.filter_append, List.filter_filter]
    rfl

variable [LawfulBEq β]

/-- No key is lost. -/
lemma exists_mem_distinctBy {as : List α} {a : α} (h : a ∈ as) :
    ∃ b ∈ distinctBy key as, key b = key a := by
  induction as with
  | nil => cases h
  | cons c cs ih =>
    by_cases e : key c = key a
    · exact ⟨c, .head _, e⟩
    · rcases List.mem_cons.mp h with rfl | h
      · exact absurd rfl e
      · obtain ⟨b, hb, same⟩ := ih h
        have ne : (key b != key c) = true := bne_iff_ne.mpr fun e' => e (e'.symm.trans same)
        exact ⟨b, .tail _ (List.mem_filter.mpr ⟨hb, ne⟩), same⟩

/-- The distinct elements have distinct keys. -/
lemma nodup_distinctBy (as : List α) : ((distinctBy key as).map key).Nodup := by
  induction as with
  | nil => exact .nil
  | cons a as ih =>
    rw [distinctBy, List.map_cons, List.nodup_cons]
    constructor
    · intro h
      obtain ⟨b, hb, e⟩ := List.mem_map.mp h
      obtain ⟨_, ne⟩ := List.mem_filter.mp hb
      rw [e, bne_self_eq_false] at ne
      cases ne
    · exact ih.sublist (List.filter_sublist.map key)

/-- Elements with distinct keys are all kept. -/
lemma distinctBy_of_nodup {as : List α} (h : (as.map key).Nodup) : distinctBy key as = as := by
  induction as with
  | nil => rfl
  | cons a as ih =>
    rw [List.map_cons, List.nodup_cons] at h
    rw [distinctBy, ih h.2, List.filter_eq_self.mpr]
    intro b hb
    rw [bne_iff_ne]
    exact fun e => h.1 (e ▸ List.mem_map_of_mem hb)

/-- Every element of a list is kept once. -/
lemma mem_distinct [BEq α] [LawfulBEq α] {as : List α} {a : α} : a ∈ distinct as ↔ a ∈ as := by
  constructor
  · exact fun h => distinctBy_subset as h
  · intro h
    obtain ⟨b, hb, rfl⟩ : ∃ b ∈ distinct as, id b = id a := exists_mem_distinctBy h
    exact hb

/-- The elements kept are all different. -/
lemma nodup_distinct [BEq α] [LawfulBEq α] (as : List α) : (distinct as).Nodup :=
  List.map_id (distinct as) ▸ nodup_distinctBy as

/-- Several things that all name one element name it once. -/
lemma distinct_filterMap_cons [BEq α] [LawfulBEq α] {γ : Type} {f : γ → Option α} {c : γ}
    {cs : List γ} {a : α} (h : ∀ x ∈ c :: cs, f x = some a) :
    distinct ((c :: cs).filterMap f) = [a] := by
  rw [List.filterMap_cons_some (h c (.head _))]
  refine congrArg (List.cons a) (List.filter_eq_nil_iff.mpr fun b hb => ?_)
  obtain ⟨x, hx, e⟩ := List.mem_filterMap.mp (mem_distinct.mp hb)
  cases e.symm.trans (h x (.tail _ hx))
  simp

/-- Parts with the same distinct elements make lists with the same distinct elements. -/
lemma distinct_flatMap_congr [BEq α] [LawfulBEq α] {γ : Type} {f g : γ → List α} {cs : List γ}
    (h : ∀ c ∈ cs, distinct (f c) = distinct (g c)) :
    distinct (cs.flatMap f) = distinct (cs.flatMap g) := by
  induction cs with
  | nil => rfl
  | cons c cs ih =>
    obtain ⟨first, rest⟩ := List.forall_mem_cons.mp h
    have members (a : α) : a ∈ f c ↔ a ∈ g c := by
      rw [← mem_distinct, first, mem_distinct]
    have same (b : α) : ((f c).all fun a => b != a) = (g c).all fun a => b != a := by
      rw [Bool.eq_iff_iff, List.all_eq_true, List.all_eq_true]
      simp only [members]
    calc
      _ = distinct (f c) ++ (distinct (cs.flatMap f)).filter fun b => (f c).all (b != ·) :=
        distinctBy_append ..
      _ = distinct (g c) ++ (distinct (cs.flatMap g)).filter fun b => (g c).all (b != ·) := by
        rw [first, ih rest]
        simp only [same]
      _ = _ := (distinctBy_append ..).symm

end TypeqlAssist
