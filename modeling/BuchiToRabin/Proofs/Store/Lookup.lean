import Mathlib.Data.List.Find
import BuchiToRabin.Proofs.Store.Chain
namespace BuchiToRabin

-- Fingerprints that respect equality: a value is looked for where an equal one is.
class LawfulFingerprint (α : Type u) [BEq α] [Fingerprint α] : Prop where
  fingerprint_eq : ∀ v w : α, (v == w) = true → fingerprint v = fingerprint w

theorem StorageBits.chainCount_pos (b : StorageBits) : 0 < b.chainCount := by
  unfold chainCount
  rw [Nat.one_shiftLeft]
  exact Nat.two_pow_pos _

theorem StorageBits.capacity_pos (b : StorageBits) : 0 < b.capacity := by
  unfold capacity
  rw [Nat.one_shiftLeft]
  exact Nat.two_pow_pos _

namespace Store

variable {α : Type u}

@[simp] theorem count_empty (b : StorageBits) : (empty b : Store α).count = 0 := rfl

theorem value_empty {b : StorageBits} {i : Nat} {v : α} : (empty b).value i ≠ .ok v := by
  intro held
  have inside := value_ok_pos held
  rw [count_empty] at inside
  omega

theorem mem_entries {s : Store α} {i : Nat} {v : α} : (i,v) ∈ s.entries ↔ s.value i = .ok v := by
  unfold entries
  simp only [List.mem_map,Prod.mk.injEq,Prod.exists,List.mem_zipIdx_iff_getElem?]
  constructor
  · intro listed
    obtain ⟨w,j,held,rfl,rfl⟩ := listed
    exact value_succ_eq_ok.mpr (by simpa using held)
  · intro held
    obtain ⟨positive,-⟩ := value_ok_pos held
    obtain ⟨j,rfl⟩ := Nat.exists_eq_add_of_le' positive
    exact ⟨v,j,by simpa using value_succ_eq_ok.mp held,rfl,rfl⟩

theorem entries_push {s t : Store α} {v : α} (pushed : t.values = s.values.push v) :
    t.entries = s.entries ++ [(s.count + 1,v)] := by
  simp [entries,pushed,count,List.zipIdx_append]

theorem value_push {s t : Store α} {v w : α} {i : Nat} (pushed : t.values = s.values.push v) :
    t.value i = .ok w ↔ s.value i = .ok w ∨ i = s.count + 1 ∧ w = v := by
  rw [←mem_entries,←mem_entries,entries_push pushed]
  simp

section
variable {s : Store α} {v : α} {c d last place : Nat}

theorem count_push : (s.push v).count = s.count + 1 := Array.size_push _

theorem link_push : (s.push v).link place = s.link place := by
  unfold link push
  rw [Array.getD_eq_getD_getElem?,Array.getD_eq_getD_getElem?,Array.getElem?_push]
  split
  · rename_i same
    rw [same,Array.getElem?_eq_none (Nat.le_refl _)]
    rfl
  · rfl

@[simp] theorem size_attach (earlier : last < s.values.size) : (s.attach c last earlier).size = s.size := by
  cases last <;> rfl

@[simp] theorem values_attach (earlier : last < s.values.size) :
    (s.attach c last earlier).values = s.values := by
  cases last <;> rfl

theorem head_attach (earlier : last < s.values.size) (inside : c < s.size.chainCount) :
    (s.attach c last earlier).head d = if last = 0 ∧ d = c then s.count else s.head d := by
  cases last with
  | zero =>
    have present : c < s.heads.size := by rwa [s.heads_size]
    unfold attach head
    rw [Array.getD_eq_getD_getElem?,Array.getD_eq_getD_getElem?,Array.getElem?_setIfInBounds]
    by_cases same : c = d
    · subst same
      simp [present,count]
    · simp [same,Ne.symm same]
  | succ last => simp [attach,head]

theorem link_attach (earlier : last < s.values.size) :
    (s.attach c last earlier).link place = if place + 1 = last then s.count else s.link place := by
  cases last with
  | zero => simp [attach,link]
  | succ last =>
    have present : last < s.nexts.size := by
      rw [s.nexts_size]
      exact Nat.lt_of_succ_lt earlier
    unfold attach link
    rw [Array.getD_eq_getD_getElem?,Array.getD_eq_getD_getElem?,Array.getElem?_setIfInBounds]
    by_cases same : last = place
    · subst same
      simp [present,count]
    · simp [same,Ne.symm same]

end

variable [Fingerprint α]

theorem chainOf_lt (s : Store α) (v : α) : s.chainOf v < s.size.chainCount := Nat.mod_lt _ s.size.chainCount_pos

-- The store is a list of pairs: an index and the value put under it. Each chain lists the indices of its
-- values in that order.
structure Lists (s : Store α) (puts : List (Nat × α)) : Prop where
  held : ∀ e ∈ puts, s.value e.1 = .ok e.2
  chained : ∀ c, c < s.size.chainCount →
    s.Follows (s.head c) ((puts.filter fun e => s.chainOf e.2 == c).map Prod.fst)

theorem empty_lists (b : StorageBits) : (empty b : Store α).Lists [] where
  held := nofun
  chained c inside := by
    have first : (empty b : Store α).head c = 0 := by
      unfold head empty
      rw [Array.getD_eq_getD_getElem?,Array.getElem?_replicate]
      split <;> rfl
    rw [first]
    exact .stop

namespace Lists

variable {s : Store α} {puts : List (Nat × α)}

theorem index_le (lists : s.Lists puts) {e : Nat × α} (listed : e ∈ puts) : e.1 ≤ s.count :=
  (value_ok_pos (lists.held e listed)).2

variable [BEq α]

-- Looking in the chain of a value is looking among all.
theorem find_eq [LawfulFingerprint α] (lists : s.Lists puts) (v : α) :
    s.find v = (puts.find? fun e => v == e.2).map Prod.fst := by
  rw [(lists.chained _ (s.chainOf_lt v)).find_eq,among,List.find?_map,List.find?_filter]
  congr 1
  apply List.find?_congr
  intro e listed
  rw [Function.comp_apply,holds_of_value (lists.held e listed)]
  cases same : v == e.2 with
  | false => simp
  | true =>
    have chain : s.chainOf e.2 = s.chainOf v := by
      unfold chainOf
      rw [LawfulFingerprint.fingerprint_eq v e.2 same]
    simp [chain]

end Lists

-- The latest value comes after `last`, or first in chain `c` where there is none.
structure Linked (s t : Store α) (c last : Nat) : Prop where
  head : ∀ d, t.head d = if last = 0 ∧ d = c then s.count + 1 else s.head d
  link : ∀ place, t.link place = if place + 1 = last then s.count + 1 else s.link place

structure Appends (s : Store α) (v : α) (t : Store α) : Prop where
  size : t.size = s.size
  values : t.values = s.values.push v
  linked : ∀ is, s.Follows (s.head (s.chainOf v)) is → s.Linked t (s.chainOf v) (is.getLastD 0)

theorem push_attach_appends {s : Store α} {v : α} {last : Nat} (le : last ≤ s.values.size)
    (ends : ∀ is, s.Follows (s.head (s.chainOf v)) is → is.getLastD 0 = last) :
    s.Appends v ((s.push v).attach (s.chainOf v) last (s.lt_size_push v le)) where
  size := size_attach _
  values := values_attach _
  linked is path := by
    have inside : s.chainOf v < (s.push v).size.chainCount := s.chainOf_lt v
    rw [ends is path]
    constructor
    · intro d
      rw [head_attach _ inside,count_push]
      rfl
    · intro place
      rw [link_attach,count_push,link_push]

namespace Appends

variable {s t : Store α} {v : α} {i c : Nat} {is js : List Nat}

theorem count_eq (appends : s.Appends v t) : t.count = s.count + 1 := by
  simp [count,appends.values]

theorem chainOf_eq (appends : s.Appends v t) (w : α) : t.chainOf w = s.chainOf w := by
  unfold chainOf
  rw [appends.size]

-- Only the last link of the chain of `v` is turned.
theorem next_eq (appends : s.Appends v t) (path : s.Follows (s.head (s.chainOf v)) is) (positive : 1 ≤ i)
    (inside : i ≤ s.count) (other : i ≠ is.getLastD 0) : t.next i = s.next i := by
  refine next_congr positive inside (by rw [appends.count_eq]; omega) ?_
  rw [(appends.linked is path).link,if_neg (by omega)]

theorem follows_new (appends : s.Appends v t) (path : s.Follows (s.head (s.chainOf v)) is) :
    t.Follows (s.count + 1) [s.count + 1] := by
  have last : is.getLastD 0 ≤ s.count := by
    cases ending : is.getLast? with
    | none => simp [List.getLast?_eq_none_iff.mp ending]
    | some last =>
      rw [List.getLastD_eq_getLast?,ending]
      exact (path.inside last (List.mem_of_getLast? ending)).2.2
  refine .on (next_eq_ok.mpr ⟨by rw [appends.count_eq]; omega,?_⟩) .stop
  have none : s.nexts[s.count]? = none := Array.getElem?_eq_none (Nat.le_of_eq s.nexts_size)
  rw [(appends.linked is path).link,if_neg (by omega),Nat.add_sub_cancel,link,Array.getD_eq_getD_getElem?,none]
  rfl

-- The chain of `v` gets longer by one.
theorem follows_own (appends : s.Appends v t) (path : s.Follows (s.head (s.chainOf v)) is) :
    t.Follows (t.head (s.chainOf v)) (is ++ [s.count + 1]) := by
  have new := appends.follows_new path
  have linked := appends.linked is path
  cases ending : is.getLast? with
  | none =>
    cases List.getLast?_eq_none_iff.mp ending
    rw [linked.head,if_pos ⟨rfl,rfl⟩]
    exact new
  | some last =>
    have bounds := path.inside last (List.mem_of_getLast? ending)
    have lastD : is.getLastD 0 = last := by rw [List.getLastD_eq_getLast?,ending]; rfl
    rw [linked.head,lastD,if_neg (by omega)]
    refine path.extend ending ?_ (next_eq_ok.mpr ⟨by rw [appends.count_eq]; omega,?_⟩) new
    · intro k listed other
      have here := path.inside k listed
      exact appends.next_eq path here.1 here.2.2 (lastD ▸ other)
    · rw [linked.link,lastD,if_pos (Nat.sub_add_cancel bounds.1)]

-- Chains apart from it stay as they are.
theorem follows_other (appends : s.Appends v t) (path : s.Follows (s.head (s.chainOf v)) is)
    (differs : c ≠ s.chainOf v) (other : s.Follows (s.head c) js) (apart : ∀ k ∈ js, k ∉ is) :
    t.Follows (t.head c) js := by
  rw [(appends.linked is path).head,if_neg fun own => differs own.2]
  refine other.frame fun k listed => ?_
  have here := other.inside k listed
  refine appends.next_eq path here.1 here.2.2 ?_
  intro same
  cases ending : is.getLast? with
  | none =>
    rw [List.getLastD_eq_getLast?,ending] at same
    simp only [Option.getD_none] at same
    omega
  | some last =>
    rw [List.getLastD_eq_getLast?,ending] at same
    exact apart k listed (same ▸ List.mem_of_getLast? ending)

end Appends

-- A value outside all chains changes none of them.
theorem Lists.push {s : Store α} {puts : List (Nat × α)} (lists : s.Lists puts) (v : α) :
    (s.push v).Lists puts where
  held e listed := (value_push rfl).mpr (.inl (lists.held e listed))
  chained c inside := by
    refine (lists.chained c inside).frame fun k listed => ?_
    have here := (lists.chained c inside).inside k listed
    refine next_congr here.1 here.2.2 ?_ link_push
    rw [count_push]
    exact Nat.le_succ _

-- Values of different chains stand under different indices.
theorem Lists.apart {s : Store α} {puts : List (Nat × α)} {c d i : Nat} (lists : s.Lists puts) (differs : c ≠ d)
    (left : i ∈ (puts.filter fun e => s.chainOf e.2 == c).map Prod.fst) :
    i ∉ (puts.filter fun e => s.chainOf e.2 == d).map Prod.fst := by
  intro right
  obtain ⟨e,listed,rfl⟩ := List.mem_map.mp left
  obtain ⟨f,listed',same⟩ := List.mem_map.mp right
  obtain ⟨put,chain⟩ := List.mem_filter.mp listed
  obtain ⟨put',chain'⟩ := List.mem_filter.mp listed'
  have held := lists.held e put
  rw [←same,lists.held f put',Except.ok.injEq] at held
  rw [held,beq_iff_eq] at chain'
  exact differs ((beq_iff_eq.mp chain).symm.trans chain')

theorem Lists.append {s t : Store α} {puts : List (Nat × α)} {v : α} (lists : s.Lists puts)
    (appends : s.Appends v t) : t.Lists (puts ++ [(s.count + 1,v)]) where
  held e listed := by
    rw [value_push appends.values]
    rcases List.mem_append.mp listed with old | new
    · exact .inl (lists.held e old)
    · cases List.mem_singleton.mp new
      exact .inr ⟨rfl,rfl⟩
  chained c inside := by
    rw [appends.size] at inside
    have own := lists.chained _ (s.chainOf_lt v)
    simp only [appends.chainOf_eq,List.filter_append,List.map_append]
    by_cases same : c = s.chainOf v
    · subst same
      simpa using appends.follows_own own
    · have other := appends.follows_other own same (lists.chained c inside) fun k => lists.apart same
      simpa [Ne.symm same] using other

section
variable [BEq α]

-- A search that fails has come to the last index of the chain.
theorem getLastD_of_locate {s : Store α} {v : α} {last : Nat} {le : last ≤ s.values.size}
    (ended : s.locate v (s.chainOf v) = .ending last le) (is : List Nat)
    (path : s.Follows (s.head (s.chainOf v)) is) : is.getLastD 0 = last := by
  have search := path.seek (v := v) (Nat.zero_le _) (s.head_le _)
  rw [locate] at ended
  cases looked : s.among v is with
  | some k =>
    rw [search.1 k looked] at ended
    cases ended
  | none =>
    obtain ⟨le',same⟩ := search.2 looked
    rw [same] at ended
    cases ended
    rfl

theorem put_ok {s t : Store α} {v : α} {i : Nat} {isNew : Bool} (done : s.put v = (.ok (i,isNew),t)) :
    s.find v = some i ∧ isNew = false ∧ t = s ∨
      s.find v = none ∧ isNew = true ∧ i = s.count + 1 ∧ s.count + 1 < s.size.capacity ∧ s.Appends v t := by
  unfold put at done
  unfold find
  dsimp only at done
  cases located : s.locate v (s.chainOf v) with
  | found j =>
    rw [located] at done
    cases done
    exact .inl ⟨rfl,rfl,rfl⟩
  | ending last le =>
    rw [located] at done
    dsimp only at done
    by_cases room : s.count + 1 < s.size.capacity
    · rw [if_pos room] at done
      cases done
      exact .inr ⟨rfl,rfl,rfl,room,push_attach_appends le (getLastD_of_locate located)⟩
    · rw [if_neg room] at done
      cases done

-- Storing fails for want of room, and only for a value that is not there yet. Nothing is changed by then.
theorem put_error {s t : Store α} {v : α} {e : Error} (failed : s.put v = (.error e,t)) :
    s.find v = none ∧ s.size.capacity ≤ s.count + 1 ∧ e = .full ∧ t = s := by
  unfold put at failed
  unfold find
  dsimp only at failed
  cases located : s.locate v (s.chainOf v) with
  | found j =>
    rw [located] at failed
    cases failed
  | ending last le =>
    rw [located] at failed
    dsimp only at failed
    by_cases room : s.count + 1 < s.size.capacity
    · rw [if_pos room] at failed
      cases failed
    · rw [if_neg room] at failed
      cases failed
      exact ⟨rfl,Nat.le_of_not_lt room,rfl,rfl⟩

-- Two stores of one count that find the same go on alike, where both have room.
theorem put_agree {s t s' t' : Store α} {v w : α} {place place' : Nat × Bool} (find : s'.find w = s.find v)
    (count : s'.count = s.count) (done : s.put v = (.ok place,t)) (done' : s'.put w = (.ok place',t')) :
    place' = place ∧ (t = s ∧ t' = s' ∨ s.Appends v t ∧ s'.Appends w t') := by
  obtain ⟨i,isNew⟩ := place
  obtain ⟨i',isNew'⟩ := place'
  rcases put_ok done with ⟨found,rfl,rfl⟩ | ⟨absent,rfl,rfl,-,appends⟩
  · rcases put_ok done' with ⟨found',rfl,rfl⟩ | ⟨absent',-⟩
    · rw [find,found] at found'
      cases found'
      exact ⟨rfl,.inl ⟨rfl,rfl⟩⟩
    · rw [find,found] at absent'
      cases absent'
  · rcases put_ok done' with ⟨found',-⟩ | ⟨-,rfl,rfl,-,appends'⟩
    · rw [find,absent] at found'
      cases found'
    · rw [count]
      exact ⟨rfl,.inr ⟨appends,appends'⟩⟩

end

-- Every value was put, and is looked for among all.
def Complete (s : Store α) : Prop := s.Lists s.entries

namespace Complete

variable {s t : Store α} {v w : α} {i : Nat}

theorem append (complete : s.Complete) (appends : s.Appends v t) : t.Complete := by
  unfold Complete
  rw [entries_push appends.values]
  exact Lists.append complete appends

variable [BEq α] [LawfulFingerprint α]

theorem find_some (complete : s.Complete) (found : s.find v = some i) :
    ∃ w, s.value i = .ok w ∧ (v == w) = true := by
  rw [Lists.find_eq complete,Option.map_eq_some_iff] at found
  obtain ⟨e,found,rfl⟩ := found
  exact ⟨e.2,mem_entries.mp (List.mem_of_find?_eq_some found),by simpa using List.find?_some found⟩

theorem find_none (complete : s.Complete) (absent : s.find v = none) (held : s.value i = .ok w) :
    (v == w) = false := by
  rw [Lists.find_eq complete,Option.map_eq_none_iff,List.find?_eq_none] at absent
  simpa using absent (i,w) (mem_entries.mpr held)

end Complete
end Store
end BuchiToRabin
