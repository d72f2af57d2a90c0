import Mathlib.Data.List.Forall2
import BuchiToRabin.Determinization.Basic
import BuchiToRabin.Proofs.Step.Run
import BuchiToRabin.Proofs.Store.Lookup
namespace BuchiToRabin

namespace Tree

theorem beq_iff {t u : Tree} : (t == u) = true ↔ t.root = u.root := by
  change (t.root == u.root) = true ↔ _
  exact beq_iff_eq

-- The names in use are not looked at, neither to compare nor for the fingerprint.
instance : LawfulFingerprint Tree where
  fingerprint_eq t u same := by
    have root := beq_iff.mp same
    show (Layout.sweep Vertex.digest 0 t.slots).headD 0 = (Layout.sweep Vertex.digest 0 u.slots).headD 0
    unfold slots forest
    rw [root]

-- In a valid tree the nodes tell the names in use.
theorem Valid.eq_of_root {t u : Tree} (valid : t.Valid) (other : u.Valid) (same : t.root = u.root) : t = u := by
  have forests : t.forest = u.forest := by unfold forest; rw [same]
  have used : t.used = u.used := by rw [valid.used,other.used,names,names,forests]
  cases t
  cases u
  cases same
  cases used
  rfl

end Tree

namespace Determinization

variable {A : Automaton} {s r : Store Tree} {t : Tree} {i : Nat} {isNew : Bool}

-- A store of trees over an automaton, no two with the same nodes.
structure Stock (A : Automaton) (s : Store Tree) : Prop where
  complete : s.Complete
  fits : ∀ i t, s.value i = .ok t → t.Over A
  apart : ∀ i j t u, s.value i = .ok t → s.value j = .ok u → t.root = u.root → i = j
  room : s.count < s.size.capacity

theorem stock_empty (A : Automaton) (b : StorageBits) : Stock A (.empty b) where
  complete := Store.empty_lists b
  fits _ _ held := absurd held Store.value_empty
  apart _ _ _ _ held := absurd held Store.value_empty
  room := b.capacity_pos

structure Extends (s r : Store Tree) : Prop where
  size : r.size = s.size
  count_le : s.count ≤ r.count
  value : ∀ i t, s.value i = .ok t → r.value i = .ok t

theorem extends_refl (s : Store Tree) : Extends s s := ⟨rfl,Nat.le_refl _,fun _ _ held => held⟩

theorem Extends.trans {q : Store Tree} (first : Extends s r) (second : Extends r q) : Extends s q :=
  ⟨second.size.trans first.size,Nat.le_trans first.count_le second.count_le,
    fun i t held => second.value i t (first.value i t held)⟩

theorem extends_of_appends (appends : s.Appends t r) : Extends s r :=
  ⟨appends.size,by rw [appends.count_eq]; omega,fun i u held => (Store.value_push appends.values).mpr (.inl held)⟩

theorem Stock.append (stock : Stock A s) (fits : t.Over A) (absent : s.find t = none)
    (room : s.count + 1 < s.size.capacity) (appends : s.Appends t r) : Stock A r where
  complete := stock.complete.append appends
  fits i u held := by
    rcases (Store.value_push appends.values).mp held with old | ⟨-,rfl⟩
    · exact stock.fits i u old
    · exact fits
  apart i j u v left right same := by
    have new : ∀ {k w}, s.value k = .ok w → t.root ≠ w.root := by
      intro k w held equal
      have := stock.complete.find_none absent held
      rw [Tree.beq_iff.mpr equal] at this
      cases this
    rcases (Store.value_push appends.values).mp left with left | ⟨rfl,rfl⟩
    · rcases (Store.value_push appends.values).mp right with right | ⟨rfl,rfl⟩
      · exact stock.apart i j u v left right same
      · exact absurd same.symm (new left)
    · rcases (Store.value_push appends.values).mp right with right | ⟨rfl,rfl⟩
      · exact absurd same (new right)
      · rfl
  room := by rwa [appends.count_eq,appends.size]

theorem discovered_append (left right : List (Nat × Bool)) :
    discovered (left ++ right) = discovered left ++ discovered right := by
  simp [discovered]

theorem mem_places {places : List (Nat × Bool)} (listed : i ∈ discovered places) :
    i ∈ places.map (·.1) := by
  unfold discovered at listed
  obtain ⟨place,found,rfl⟩ := List.mem_map.mp listed
  exact List.mem_map_of_mem (List.mem_filter.mp found).1

-- What storing trees one after the other does: each is under its index, and the indices that come in are
-- those of the trees discovered, in this order.
structure Stocks (A : Automaton) (s : Store Tree) (ts : List Tree) (places : List (Nat × Bool))
    (r : Store Tree) : Prop where
  stock : Stock A r
  extend : Extends s r
  held : List.Forall₂ (fun t place => r.value place.1 = .ok t) ts places
  fresh : discovered places = List.range' (s.count + 1) (r.count - s.count)

theorem Stocks.listed {ts : List Tree} {places : List (Nat × Bool)} (stocks : Stocks A s ts places r)
    (new : s.count < i) (small : i ≤ r.count) : i ∈ places.map (·.1) := by
  apply mem_places
  rw [stocks.fresh,List.mem_range'_1]
  omega

-- Nothing else comes in.
theorem Stocks.value_cases {ts : List Tree} {places : List (Nat × Bool)} (stocks : Stocks A s ts places r)
    (held : r.value i = .ok t) : s.value i = .ok t ∨ t ∈ ts := by
  obtain ⟨positive,small⟩ := Store.value_ok_pos held
  by_cases old : i ≤ s.count
  · obtain ⟨u,before⟩ := Store.exists_value positive old
    cases held.symm.trans (stocks.extend.value i u before)
    exact .inl before
  · obtain ⟨place,listed,rfl⟩ := List.mem_map.mp (stocks.listed (by omega) small)
    obtain ⟨k,inside,rfl⟩ := List.mem_iff_getElem.mp listed
    have long := stocks.held.length_eq.symm ▸ inside
    have same := stocks.held.get long inside
    cases held.symm.trans same
    exact .inr (List.getElem_mem long)

theorem Stock.put (stock : Stock A s) (fits : t.Over A) (done : s.put t = (.ok (i,isNew),r)) :
    Stocks A s [t] [(i,isNew)] r := by
  rcases Store.put_ok done with ⟨found,rfl,rfl⟩ | ⟨absent,rfl,rfl,room,appends⟩
  · obtain ⟨u,held,same⟩ := stock.complete.find_some found
    have equal := fits.toValid.eq_of_root (stock.fits i u held).toValid (Tree.beq_iff.mp same)
    subst equal
    exact ⟨stock,extends_refl _,.cons held .nil,by simp [discovered]⟩
  · refine ⟨stock.append fits absent room appends,extends_of_appends appends,.cons ?_ .nil,?_⟩
    · exact (Store.value_push appends.values).mpr (.inr ⟨rfl,rfl⟩)
    · simp [discovered,appends.count_eq]

theorem putAll_cons {ts : List Tree} {places : List (Nat × Bool)}
    (done : putAll s (t :: ts) = .ok (places,r)) :
    ∃ i isNew q later, s.put t = (.ok (i,isNew),q) ∧ putAll q ts = .ok (later,r) ∧
      places = (i,isNew) :: later := by
  unfold putAll at done
  rcases first : s.put t with ⟨answer,q⟩
  rw [first] at done
  cases answer with
  | error e => cases done
  | ok place =>
    obtain ⟨i,isNew⟩ := place
    obtain ⟨⟨later,last⟩,rest,done⟩ := bind_eq_ok.mp done
    cases done
    exact ⟨i,isNew,q,later,rfl,rest,rfl⟩

theorem Stock.putAll (ts : List Tree) : ∀ {s places r}, Stock A s → (∀ t ∈ ts, t.Over A) →
    putAll s ts = .ok (places,r) → Stocks A s ts places r := by
  induction ts with
  | nil =>
    intro s places r stock _ done
    cases done
    exact ⟨stock,extends_refl s,.nil,by simp [discovered]⟩
  | cons t ts ih =>
    intro s places r stock overs done
    obtain ⟨i,isNew,q,later,first,rest,rfl⟩ := putAll_cons done
    have one := stock.put (overs t (.head _)) first
    have more := ih one.stock (fun u later => overs u (.tail _ later)) rest
    refine ⟨more.stock,one.extend.trans more.extend,.cons ?_ more.held,?_⟩
    · cases one.held with
      | cons held _ => exact more.extend.value i t held
    · have grown := one.extend.count_le
      have grownMore := more.extend.count_le
      have split := discovered_append [(i,isNew)] later
      rw [one.fresh,more.fresh] at split
      have next : q.count + 1 = s.count + 1 + (q.count - s.count) := by omega
      rw [next,List.range'_append_1] at split
      rw [show r.count - s.count = q.count - s.count + (r.count - q.count) by omega]
      exact split

end Determinization
end BuchiToRabin
