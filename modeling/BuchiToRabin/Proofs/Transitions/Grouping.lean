import Mathlib.Algebra.BigOperators.Group.Finset.Sigma
import Mathlib.Data.List.Dedup
import BuchiToRabin.Proofs.NatSet.Algebra
import BuchiToRabin.Transitions.Lemmas
namespace BuchiToRabin

open Finset (range)

namespace Row

theorem toList_eq (xs : Array α) (d : α) : xs.toList = (List.range xs.size).map fun i => xs.getD i d := by
  refine List.ext_getElem (by simp) fun i inside _ => ?_
  have : i < xs.size := by simpa using inside
  simp [Array.getD,this]

-- Two rows of one length that read the same are the same.
theorem ext {xs ys : Array α} {d : α} (size : xs.size = ys.size) (same : ∀ i, xs.getD i d = ys.getD i d) :
    xs = ys := by
  apply Array.toList_inj.mp
  rw [toList_eq xs d,toList_eq ys d,size]
  simp only [same]

theorem foldr_add (xs : Array α) (d : α) (f : α → Nat) :
    xs.foldr (fun x total => f x + total) 0 = ∑ i ∈ range xs.size, f (xs.getD i d) := by
  rw [←Array.foldr_toList,toList_eq xs d,List.foldr_map,Finset.sum_eq_multiset_sum,Finset.range_val,Multiset.range,
    Multiset.map_coe,Multiset.sum_coe,List.sum_eq_foldr,List.foldr_map]

theorem countP_eq (xs : Array α) (d : α) (p : α → Bool) :
    xs.countP p = {i ∈ range xs.size | p (xs.getD i d)}.card := by
  rw [←Array.countP_toList,toList_eq xs d,List.countP_map,Finset.card,Finset.filter_val,
    ←Multiset.countP_eq_card_filter,Finset.range_val,Multiset.range,Multiset.coe_countP]
  simp [Function.comp_def]

end Row

namespace Relation

variable {r r' : Relation} {q n : Nat}

theorem lt_size_add {t : Nat} : n < (r.add q t).rows.size ↔ n ≤ q ∨ n < r.rows.size := by
  rw [add,Row.size_adjust]
  omega

theorem targets_past (past : r.rows.size ≤ q) : r.targets q = ∅ := by
  rw [targets,Array.getD_eq_getD_getElem?,Array.getElem?_eq_none past,Option.getD_none]

theorem ext_targets (size : r.rows.size = r'.rows.size) (same : ∀ q, r.targets q = r'.targets q) : r = r' := by
  obtain ⟨rows⟩ := r
  obtain ⟨rows'⟩ := r'
  exact congrArg Relation.mk (Row.ext size same)

theorem edgeCount_eq (r : Relation) : r.edgeCount = ∑ q ∈ range r.rows.size, (r.targets q).card :=
  Row.foldr_add r.rows ∅ NatSet.card

theorem sources_eq (r : Relation) : r.sources = {q ∈ range r.rows.size | r.targets q ≠ ∅}.card := by
  rw [sources,Row.countP_eq r.rows ∅]
  congr 1
  ext q
  simp [targets,←NatSet.isEmpty_iff]

theorem post_union (r : Relation) (s t : NatSet) : r.post (s ∪ t) = r.post s ∪ r.post t := by
  ext i
  simp only [mem_post,NatSet.mem_union,or_and_right,exists_or]

theorem post_mono {s t : NatSet} (sub : s ⊆ t) : r.post s ⊆ r.post t := by
  intro i
  simp only [mem_post]
  rintro ⟨q,present,edge⟩
  exact ⟨q,sub q present,edge⟩

end Relation

namespace Transitions

variable {es fs : List Edge} {ts us : Transitions} {a q n : Nat}

theorem under_past (past : ts.maxSymbol < a) : ts.under a = ∅ := by
  cases a with
  | zero => rfl
  | succ a =>
    rw [under,Array.getD_eq_getD_getElem?,Array.getElem?_eq_none (Nat.le_of_lt_succ past),Option.getD_none]

theorem ext_under (size : ts.maxSymbol = us.maxSymbol) (same : ∀ a, ts.under a = us.under a) : ts = us := by
  obtain ⟨relations⟩ := ts
  obtain ⟨relations'⟩ := us
  exact congrArg Transitions.mk (Row.ext size fun i => same (i + 1))

theorem edgeCount_eq (ts : Transitions) :
    ts.edgeCount = ∑ a ∈ range ts.maxSymbol, (ts.under (a + 1)).edgeCount :=
  Row.foldr_add ts.relations ∅ Relation.edgeCount

-- Relations reach up to the greatest symbol of the edges, and rows up to the greatest source.
theorem lt_maxSymbol_gather (positive : ∀ e ∈ es, 0 < e.symbol) :
    n < (gather es).maxSymbol ↔ ∃ e ∈ es, n < e.symbol := by
  refine gather_iff (P := fun ts => n < ts.maxSymbol) (Nat.not_lt_zero n) (fun ts e above => ?_) positive
  simp only [maxSymbol,add,Row.size_adjust]
  omega

theorem lt_size_gather (positive : ∀ e ∈ es, 0 < e.symbol) :
    n < ((gather es).under a).rows.size ↔ ∃ e ∈ es, e.symbol = a ∧ n ≤ e.source := by
  have start : ¬ n < ((∅ : Transitions).under a).rows.size := by
    rw [under_empty]
    exact Nat.not_lt_zero n
  refine gather_iff (P := fun ts => n < (ts.under a).rows.size) start (fun ts e above => ?_) positive
  rw [under_add ts above]
  split
  · rename_i here
    rw [Relation.lt_size_add]
    simp [here]
  · rename_i elsewhere
    simp [Ne.symm elsewhere]

theorem targets_gather_eq_empty (positive : ∀ e ∈ es, 0 < e.symbol) :
    ((gather es).under a).targets q = ∅ ↔ ∀ t, ⟨q,a,t⟩ ∉ es := by
  simp [NatSet.eq_empty_iff,mem_gather positive]

-- There is one value per set of edges: the listed edges fix the lengths as well as the entries.
theorem gather_eq_iff (left : ∀ e ∈ es, 0 < e.symbol) (right : ∀ e ∈ fs, 0 < e.symbol) :
    gather es = gather fs ↔ ∀ e, e ∈ es ↔ e ∈ fs := by
  constructor
  · intro same ⟨q,a,t⟩
    rw [←mem_gather left,same,mem_gather right]
  · intro same
    have symbols : (gather es).maxSymbol = (gather fs).maxSymbol := by
      refine eq_of_forall_lt_iff fun n => ?_
      simp only [lt_maxSymbol_gather left,lt_maxSymbol_gather right,same]
    refine ext_under symbols fun a => Relation.ext_targets ?_ fun q => ?_
    · refine eq_of_forall_lt_iff fun n => ?_
      simp only [lt_size_gather left,lt_size_gather right,same]
    · ext t
      rw [mem_gather left,mem_gather right,same]

-- The triples counted row by row are the listed edges, each once.
theorem edgeCount_gather (positive : ∀ e ∈ es, 0 < e.symbol) : (gather es).edgeCount = es.toFinset.card := by
  simp only [edgeCount_eq,Relation.edgeCount_eq,NatSet.card_eq_toFinset]
  simp only [←Finset.card_sigma]
  refine Finset.card_bij (fun e _ => ⟨e.2.1,e.1 + 1,e.2.2⟩) ?_ ?_ ?_
  · rintro ⟨a,q,t⟩ listed
    simp only [Finset.mem_sigma,List.mem_toFinset,NatSet.mem_elements] at listed
    exact List.mem_toFinset.mpr ((mem_gather positive).mp listed.2.2)
  · rintro ⟨a,q,t⟩ _ ⟨b,p,i⟩ _ same
    cases same
    rfl
  · rintro ⟨q,a,t⟩ listed
    rw [List.mem_toFinset] at listed
    obtain ⟨a,rfl⟩ : ∃ b, a = b + 1 := Nat.exists_eq_add_one.mpr (positive _ listed)
    refine ⟨⟨a,q,t⟩,?_,rfl⟩
    simp only [Finset.mem_sigma,Finset.mem_range,List.mem_toFinset,NatSet.mem_elements]
    exact ⟨(lt_maxSymbol_gather positive).mpr ⟨_,listed,Nat.lt_succ_self a⟩,
      (lt_size_gather positive).mpr ⟨_,listed,rfl,le_rfl⟩,(mem_gather positive).mpr listed⟩

theorem sources_gather (positive : ∀ e ∈ es, 0 < e.symbol) (a : Nat) :
    ((gather es).under a).sources = (Finset.image Edge.source {e ∈ es.toFinset | e.symbol = a}).card := by
  rw [Relation.sources_eq]
  congr 1
  ext q
  simp only [Finset.mem_filter,Finset.mem_range,Finset.mem_image,List.mem_toFinset,NatSet.ne_empty_iff,
    mem_gather positive,lt_size_gather positive]
  constructor
  · rintro ⟨_,t,listed⟩
    exact ⟨_,⟨listed,rfl⟩,rfl⟩
  · rintro ⟨e,⟨listed,rfl⟩,rfl⟩
    exact ⟨⟨e,listed,rfl,le_rfl⟩,e.target,listed⟩

theorem symbol_le_maxSymbol (positive : ∀ e ∈ es, 0 < e.symbol) {e : Edge} (listed : e ∈ es) :
    e.symbol ≤ (gather es).maxSymbol :=
  Nat.le_of_pred_lt ((lt_maxSymbol_gather positive).mpr ⟨e,listed,Nat.pred_lt_self (positive e listed)⟩)

theorem maxSymbol_used (positive : ∀ e ∈ es, 0 < e.symbol) :
    es = [] ∧ (gather es).maxSymbol = 0 ∨ ∃ e ∈ es, e.symbol = (gather es).maxSymbol := by
  by_cases none : (gather es).maxSymbol = 0
  · refine .inl ⟨List.eq_nil_iff_forall_not_mem.mpr fun e listed => ?_,none⟩
    have reaches := symbol_le_maxSymbol positive listed
    have := positive e listed
    omega
  · obtain ⟨e,listed,reaches⟩ := (lt_maxSymbol_gather positive).mp (Nat.pred_lt none)
    exact .inr ⟨e,listed,le_antisymm (symbol_le_maxSymbol positive listed) (Nat.le_of_pred_lt reaches)⟩

-- Every answer is told by the set of listed edges, and the whole value with it. A lookup misses where no edge
-- is listed, and so does every one for symbol 0, past the last symbol or past the last row. The edges may be
-- sorted first, by any order.
structure Groups (es : List Edge) (ts : Transitions) : Prop where
  targets (a q t : Nat) : t ∈ (ts.under a).targets q ↔ ⟨q,a,t⟩ ∈ es
  missing (a q : Nat) :
    (∀ t, ⟨q,a,t⟩ ∉ es) ∨ a = 0 ∨ ts.maxSymbol < a ∨ (ts.under a).rows.size ≤ q → (ts.under a).targets q = ∅
  image (a : Nat) (s : NatSet) (t : Nat) : t ∈ (ts.under a).post s ↔ ∃ q ∈ s, ⟨q,a,t⟩ ∈ es
  joined (a : Nat) (s u : NatSet) : (ts.under a).post (s ∪ u) = (ts.under a).post s ∪ (ts.under a).post u
  monotone (a : Nat) (s u : NatSet) : s ⊆ u → (ts.under a).post s ⊆ (ts.under a).post u
  edges : ts.edgeCount = es.toFinset.card
  sources (a : Nat) : (ts.under a).sources = (Finset.image Edge.source {e ∈ es.toFinset | e.symbol = a}).card
  within (e : Edge) : e ∈ es → e.symbol ≤ ts.maxSymbol
  used : es = [] ∧ ts.maxSymbol = 0 ∨ ∃ e ∈ es, e.symbol = ts.maxSymbol
  canonical (fs : List Edge) (us : Transitions) : ofEdges fs = .ok us → (ts = us ↔ ∀ e, e ∈ es ↔ e ∈ fs)
  sorted (order : Edge → Edge → Bool) : ofEdges (es.mergeSort order) = .ok ts

theorem symbol_pos (sound : ∀ e ∈ es, edgeFault? e = none) : ∀ e ∈ es, 0 < e.symbol :=
  fun e listed => (edgeFault?_eq_none_iff.mp (sound e listed)).1

theorem groups_gather (sound : ∀ e ∈ es, edgeFault? e = none) : Groups es (gather es) := by
  have positive := symbol_pos sound
  exact {
    targets := fun a q t => mem_gather positive
    missing := by
      rintro a q (unlisted | rfl | past | past)
      · exact (targets_gather_eq_empty positive).mpr unlisted
      · exact Relation.targets_empty q
      · rw [under_past past,Relation.targets_empty]
      · exact Relation.targets_past past
    image := fun a s t => by simp only [Relation.mem_post,mem_gather positive]
    joined := fun a s u => Relation.post_union ((gather es).under a) s u
    monotone := fun a s u => Relation.post_mono
    edges := edgeCount_gather positive
    sources := sources_gather positive
    within := fun e => symbol_le_maxSymbol positive
    used := maxSymbol_used positive
    canonical := fun fs us grouped => by
      obtain ⟨others,rfl⟩ := ofEdges_eq_ok.mp grouped
      exact gather_eq_iff positive (symbol_pos others)
    sorted := fun order => by
      have same (e : Edge) : e ∈ es.mergeSort order ↔ e ∈ es := (List.mergeSort_perm es order).mem_iff
      have still : ∀ e ∈ es.mergeSort order, edgeFault? e = none := fun e listed => sound e ((same e).mp listed)
      exact ofEdges_eq_ok.mpr ⟨still,(gather_eq_iff (symbol_pos still) positive).mpr same⟩ }

-- Edges for which there is room are grouped; one for which there is none stops the program.
theorem ofEdges_groups (positive : ∀ e ∈ es, 0 < e.symbol) :
    ((∀ e ∈ es, Roomy e) → ∃ ts, ofEdges es = .ok ts ∧ Groups es ts) ∧
      ((∃ e ∈ es, ¬ Roomy e) → ∃ p, ofEdges es = .error (.panic p)) := by
  refine ⟨fun roomy => ?_,ofEdges_panics positive⟩
  have sound : ∀ e ∈ es, edgeFault? e = none :=
    fun e listed => edgeFault?_eq_none_iff.mpr ⟨positive e listed,roomy e listed⟩
  exact ⟨gather es,ofEdges_eq_ok.mpr ⟨sound,rfl⟩,groups_gather sound⟩

-- Symbols out of order, and one edge twice.
def shuffled : List Edge := [⟨1,2,0⟩,⟨0,1,1⟩,⟨0,1,2⟩,⟨0,1,1⟩,⟨2,1,2⟩]

theorem ofEdges_groups_shuffled : (∀ e ∈ shuffled, 0 < e.symbol) ∧ (∀ e ∈ shuffled, Roomy e) ∧
    ∃ ts, ofEdges shuffled = .ok ts ∧ Groups shuffled ts :=
  have positive : ∀ e ∈ shuffled, 0 < e.symbol := by decide
  have roomy : ∀ e ∈ shuffled, Roomy e := by decide
  ⟨positive,roomy,(ofEdges_groups positive).1 roomy⟩

example : (gather shuffled).edgeCount = 4 ∧ (gather shuffled).maxSymbol = 2 ∧
    ((gather shuffled).under 1).sources = 2 := by decide +kernel

-- One edge whose symbol is the last word there is.
theorem far_symbol_ungrouped :
    ¬ ∀ es : List Edge, (∀ e ∈ es, 0 < e.symbol) → ∃ ts, ofEdges es = .ok ts ∧ Groups es ts := by
  intro all
  obtain ⟨ts,grouped,-⟩ := all [⟨0,2 ^ 64 - 1,0⟩] (by decide)
  obtain ⟨sound,-⟩ := ofEdges_eq_ok.mp grouped
  exact absurd (sound _ (.head [])) (by decide)

end Transitions
end BuchiToRabin
