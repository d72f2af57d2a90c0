import BuchiToRabin.Determinization.Dot
import BuchiToRabin.Proofs.Determinization.Chart
namespace BuchiToRabin.Determinization

variable {d : Determinization} {groups : List (Nat × List Nat)} {entries : List (Nat × Nat)}
  {row symbols : List Nat} {e f : Arrow} {i j a t target symbol : Nat}

-- Only the group of the target changes, or comes in.
theorem mem_enter (ascending : groups.Pairwise (·.1 < ·.1)) : (t,symbols) ∈ enter target symbol groups ↔
    t ≠ target ∧ (t,symbols) ∈ groups ∨
      t = target ∧ ∃ old, symbols = symbol :: old ∧ ((t,old) ∈ groups ∨ old = [] ∧ ∀ g ∈ groups, g.1 ≠ t) := by
  induction groups with
  | nil => simp [enter]
  | cons g rest ih =>
    obtain ⟨above,ascending⟩ := List.pairwise_cons.mp ascending
    rw [enter]
    split
    · grind
    · split
      · grind
      · rw [List.mem_cons,ih ascending]
        grind

theorem enter_ascending (ascending : groups.Pairwise (·.1 < ·.1)) :
    (enter target symbol groups).Pairwise (·.1 < ·.1) := by
  induction groups with
  | nil => exact List.pairwise_singleton _ _
  | cons g rest ih =>
    obtain ⟨above,tail⟩ := List.pairwise_cons.mp ascending
    rw [enter]
    split
    · rename_i less
      refine List.pairwise_cons.mpr ⟨fun h listed => ?_,ascending⟩
      rcases List.mem_cons.mp listed with rfl | later
      · exact less
      · exact Nat.lt_trans less (above h later)
    · split
      · exact List.pairwise_cons.mpr ⟨above,tail⟩
      · refine List.pairwise_cons.mpr ⟨fun h listed => ?_,ih tail⟩
        rcases (mem_enter tail).mp listed with ⟨-,old⟩ | ⟨same,-⟩
        · exact above h old
        · rw [same]
          omega

-- The symbols under which a row leads to a target.
def symbolsTo (entries : List (Nat × Nat)) (t : Nat) : List Nat :=
  (entries.filter (·.1 = t)).map (·.2 + 1)

theorem mem_symbolsTo : a ∈ symbolsTo row.zipIdx t ↔ 1 ≤ a ∧ row[a - 1]? = some t := by
  simp only [symbolsTo,List.mem_map,List.mem_filter,decide_eq_true_eq,Prod.exists,List.mem_zipIdx_iff_getElem?]
  constructor
  · intro listed
    obtain ⟨u,k,⟨entry,rfl⟩,rfl⟩ := listed
    exact ⟨Nat.le_add_left 1 k,entry⟩
  · intro entry
    exact ⟨t,a - 1,⟨entry.2,rfl⟩,Nat.sub_add_cancel entry.1⟩

theorem zipIdx_ascending (xs : List α) : xs.zipIdx.Pairwise (·.2 < ·.2) := by
  have places := List.pairwise_lt_range' (s := 0) (n := xs.length)
  rw [←List.zipIdx_map_snd] at places
  exact List.pairwise_map.mp places

theorem symbolsTo_ascending (row : List Nat) (t : Nat) : (symbolsTo row.zipIdx t).Pairwise (· < ·) := by
  refine List.pairwise_map.mpr (((zipIdx_ascending row).filter _).imp ?_)
  exact Nat.succ_lt_succ

-- Each target has one group, with all its symbols in their order.
structure Gathers (entries : List (Nat × Nat)) (groups : List (Nat × List Nat)) : Prop where
  ascending : groups.Pairwise (·.1 < ·.1)
  mem : ∀ t symbols, (t,symbols) ∈ groups ↔ symbols ≠ [] ∧ symbols = symbolsTo entries t

namespace Gathers

-- A target without a group has no symbols.
theorem mem_or_absent (gathers : Gathers entries groups) :
    (t,symbols) ∈ groups ∨ symbols = [] ∧ (∀ g ∈ groups, g.1 ≠ t) ↔ symbols = symbolsTo entries t := by
  constructor
  · intro listed
    rcases listed with listed | ⟨none,absent⟩
    · exact ((gathers.mem t symbols).mp listed).2
    · by_contra differs
      exact absent _ ((gathers.mem t _).mpr ⟨fun some => differs (none.trans some.symm),rfl⟩) rfl
  · intro same
    by_cases none : symbols = []
    · refine .inr ⟨none,fun g listed key => ?_⟩
      have some := (gathers.mem g.1 g.2).mp listed
      rw [key,←same] at some
      exact some.1 (some.2.trans none)
    · exact .inl ((gathers.mem t symbols).mpr ⟨none,same⟩)

theorem enter (gathers : Gathers entries groups) (target a : Nat) :
    Gathers ((target,a) :: entries) (enter target (a + 1) groups) where
  ascending := enter_ascending gathers.ascending
  mem t symbols := by
    rw [mem_enter gathers.ascending]
    by_cases own : t = target
    · have entered : symbolsTo ((target,a) :: entries) t = (a + 1) :: symbolsTo entries t := by
        simp [symbolsTo,own]
      simp only [gathers.mem_or_absent,entered]
      grind
    · have kept : symbolsTo ((target,a) :: entries) t = symbolsTo entries t := by
        simp [symbolsTo,Ne.symm own]
      rw [kept,gathers.mem]
      simp [own]

end Gathers

theorem gathers_grouped (row : List Nat) : Gathers row.zipIdx (grouped row) := by
  unfold grouped
  induction row.zipIdx with
  | nil => exact ⟨.nil,by simp [symbolsTo]⟩
  | cons entry entries ih => exact ih.enter entry.1 entry.2

namespace Arrow

def Precedes (e f : Arrow) : Prop := e.source < f.source ∨ e.source = f.source ∧ e.target < f.target

end Arrow

theorem mem_arrows : e ∈ d.arrows ↔ 1 ≤ e.source ∧ ∃ row, d.rows[e.source - 1]? = some row ∧
    e.symbols ≠ [] ∧ e.symbols = symbolsTo row.zipIdx e.target := by
  obtain ⟨source,target,symbols⟩ := e
  simp only [arrows,List.mem_flatMap,List.mem_map,Prod.exists,List.mem_zipIdx_iff_getElem?,Array.getElem?_toList,
    Arrow.mk.injEq]
  constructor
  · intro listed
    obtain ⟨row,i,found,t,symbols,group,rfl,rfl,rfl⟩ := listed
    exact ⟨Nat.le_add_left 1 i,row,found,((gathers_grouped row).mem _ _).mp group⟩
  · intro drawn
    obtain ⟨positive,row,found,group⟩ := drawn
    exact ⟨row,source - 1,found,target,symbols,((gathers_grouped row).mem _ _).mpr group,
      Nat.sub_add_cancel positive,rfl,rfl⟩

theorem arrows_ascending (d : Determinization) : d.arrows.Pairwise Arrow.Precedes := by
  refine List.pairwise_flatMap.mpr ⟨?_,(zipIdx_ascending _).imp ?_⟩
  · intro entry _
    exact List.pairwise_map.mpr ((gathers_grouped entry.1).ascending.imp fun less => .inr ⟨rfl,less⟩)
  · intro entry entry' less e listed f listed'
    obtain ⟨g,-,rfl⟩ := List.mem_map.mp listed
    obtain ⟨h,-,rfl⟩ := List.mem_map.mp listed'
    exact .inl (Nat.succ_lt_succ less)

theorem arrows_nodup (d : Determinization) : d.arrows.Nodup := by
  refine (arrows_ascending d).imp fun before same => ?_
  subst same
  rcases before with less | ⟨-,less⟩
  · exact Nat.lt_irrefl _ less
  · exact Nat.lt_irrefl _ less

theorem symbols_ascending (drawn : e ∈ d.arrows) : e.symbols ≠ [] ∧ e.symbols.Pairwise (· < ·) := by
  obtain ⟨-,row,-,some,same⟩ := mem_arrows.mp drawn
  refine ⟨some,?_⟩
  rw [same]
  exact symbolsTo_ascending row e.target

-- Between two states there is one arrow.
theorem eq_of_ends (drawn : e ∈ d.arrows) (drawn' : f ∈ d.arrows) (source : e.source = f.source)
    (target : e.target = f.target) : e = f := by
  obtain ⟨-,row,found,-,symbols⟩ := mem_arrows.mp drawn
  obtain ⟨-,row',found',-,symbols'⟩ := mem_arrows.mp drawn'
  rw [source,found'] at found
  cases found
  have same : e.symbols = f.symbols := by rw [symbols,symbols',target]
  exact (Arrow.mk.injEq ..).mpr ⟨source,target,same⟩

theorem exists_arrow (goes : d.successor i a = .ok j) :
    ∃ e ∈ d.arrows, e.source = i ∧ a ∈ e.symbols ∧ e.target = j := by
  obtain ⟨positive,symbol,row,found,entry⟩ := successor_eq_ok.mp goes
  have listed : a ∈ symbolsTo row.zipIdx j := mem_symbolsTo.mpr ⟨symbol.1,entry⟩
  exact ⟨⟨i,j,_⟩,mem_arrows.mpr ⟨positive,row,found,List.ne_nil_of_mem listed,rfl⟩,rfl,listed,rfl⟩

section
variable (lengths : ∀ row ∈ d.rows, row.length = d.alphabetSize)
include lengths

theorem mem_symbols_iff (drawn : e ∈ d.arrows) : a ∈ e.symbols ↔ d.successor e.source a = .ok e.target := by
  obtain ⟨positive,row,found,-,symbols⟩ := mem_arrows.mp drawn
  rw [symbols,mem_symbolsTo,successor_eq_ok]
  constructor
  · intro entry
    obtain ⟨inside,-⟩ := List.getElem?_eq_some_iff.mp entry.2
    have length := lengths row (Array.mem_of_getElem? found)
    exact ⟨positive,⟨entry.1,by omega⟩,row,found,entry.2⟩
  · intro goes
    obtain ⟨-,symbol,row',found',entry⟩ := goes
    cases found.symm.trans found'
    exact ⟨symbol.1,entry⟩

theorem successor_iff_arrow :
    d.successor i a = .ok j ↔ ∃ e ∈ d.arrows, e.source = i ∧ a ∈ e.symbols ∧ e.target = j := by
  constructor
  · exact exists_arrow
  · intro drawn
    obtain ⟨e,drawn,rfl,listed,rfl⟩ := drawn
    exact (mem_symbols_iff lengths drawn).mp listed

-- An entry of the table is on one arrow, and the list has that arrow once.
theorem filter_arrows (goes : d.successor i a = .ok j) :
    ∃ e, d.arrows.filter (fun e => e.source = i ∧ a ∈ e.symbols) = [e] ∧ e.target = j := by
  obtain ⟨e,drawn,source,listed,target⟩ := exists_arrow goes
  have once := (arrows_nodup d).filter (fun e => e.source = i ∧ a ∈ e.symbols)
  refine ⟨e,List.perm_singleton.mp ((List.perm_ext_iff_of_nodup once (List.nodup_singleton e)).mpr ?_),target⟩
  intro f
  rw [List.mem_filter,decide_eq_true_eq,List.mem_singleton]
  constructor
  · intro ⟨drawn',source',listed'⟩
    have goes' := (mem_symbols_iff lengths drawn').mp listed'
    rw [source',goes] at goes'
    exact eq_of_ends drawn' drawn (source'.trans source.symm) ((Except.ok.inj goes').symm.trans target.symm)
  · intro same
    rw [same]
    exact ⟨drawn,source,listed⟩

end
end BuchiToRabin.Determinization
