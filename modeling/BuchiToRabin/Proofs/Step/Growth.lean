import BuchiToRabin.Proofs.Attempt
import BuchiToRabin.Proofs.Automaton.Post
import BuchiToRabin.Proofs.Tree.Nested
import BuchiToRabin.Step.ByRule
namespace BuchiToRabin.Step

variable {A : Automaton} {a : Nat}

-- Every label moved on by a symbol, and every mark taken off.
def advance (A : Automaton) (a : Nat) (f : Forest Vertex) : Forest Vertex := update A a (unmark f)

@[simp] theorem advance_nil (A : Automaton) (a : Nat) : advance A a .nil = .nil := rfl
@[simp] theorem advance_cons (A : Automaton) (a : Nat) (v : Vertex) (kids right : Forest Vertex) :
    advance A a (.cons v kids right) =
      .cons ⟨v.name,A.post a v.label,false⟩ (advance A a kids) (advance A a right) := rfl

@[simp] theorem names_advance (A : Automaton) (a : Nat) (f : Forest Vertex) :
    (advance A a f).names = f.names := by
  induction f with
  | nil => rfl
  | cons v kids right below ih => rw [advance_cons,Forest.names_cons,Forest.names_cons,below,ih]

@[simp] theorem cover_advance (A : Automaton) (a : Nat) (f : Forest Vertex) :
    (advance A a f).cover = A.post a f.cover := by
  induction f with
  | nil => rfl
  | cons v kids right _ ih => rw [advance_cons,Forest.cover_cons,Forest.cover_cons,Automaton.post_union,ih]

theorem nested_advance {f : Forest Vertex} (nested : f.Nested) : (advance A a f).Nested := by
  induction f with
  | nil => trivial
  | cons v kids right below ih =>
    obtain ⟨inside,kidsNested,rightNested⟩ := nested
    rw [advance_cons,Forest.nested_cons,cover_advance]
    exact ⟨Automaton.post_mono inside,below kidsNested,ih rightNested⟩

def kid : Option Vertex → Forest Vertex
  | none => .nil
  | some v => .cons v .nil .nil

inductive Buds (A : Automaton) (label : NatSet) : NatSet → Option Vertex → NatSet → Prop where
  | rest (apart : label ∩ A.finals = ∅) : Buds A label used none used
  | grow (meets : label ∩ A.finals ≠ ∅) (free : used.firstAbsent < A.nameCount) :
      Buds A label used (some ⟨used.firstAbsent,label ∩ A.finals,true⟩) (used.insert used.firstAbsent)

-- A forest with fresh nodes put in, and the names in use before and after.
inductive Grows (A : Automaton) : Forest Vertex → NatSet → Forest Vertex → NatSet → Prop where
  | nil : Grows A .nil used .nil used
  | cons (bud : Buds A v.label used fresh named) (below : Grows A kids named kids' between)
      (beside : Grows A right between right' after) :
      Grows A (.cons v kids right) used (.cons v (kids' ++ kid fresh) right') after

def bud (A : Automaton) (label used : NatSet) : Except Exhausted (Option Vertex × NatSet) :=
  if label ∩ A.finals = ∅ then .ok (none,used)
  else do
    let (name,used) ← Name.allocate A.nameCount used
    return (some ⟨name,label ∩ A.finals,true⟩,used)

theorem bud_exact {label used named : NatSet} {fresh : Option Vertex} :
    bud A label used = .ok (fresh,named) ↔ Buds A label used fresh named := by
  constructor
  · intro done
    unfold bud Name.allocate at done
    split at done
    · rename_i apart
      cases done
      exact .rest apart
    · rename_i meets
      split at done
      · rename_i free
        cases done
        exact .grow meets free
      · cases done
  · intro buds
    cases buds with
    | rest apart => rw [bud,if_pos apart]
    | grow meets free => rw [bud,if_neg meets,Name.allocate,if_pos free]; rfl

theorem bud_error {label used : NatSet} {e : Exhausted} (failed : bud A label used = .error e) :
    label ∩ A.finals ≠ ∅ ∧ Name.allocate A.nameCount used = .error e := by
  unfold bud at failed
  split at failed
  · cases failed
  · rename_i meets
    refine ⟨meets,?_⟩
    cases named : Name.allocate A.nameCount used with
    | ok pair => rw [named] at failed; cases failed
    | error e' => rw [named] at failed; cases failed; rfl

theorem create_cons (v : Vertex) (kids right : Forest Vertex) (used : NatSet) :
    create A (.cons v kids right) used = (do
      let (fresh,used) ← bud A v.label used
      let (kids,used) ← create A kids used
      let (right,used) ← create A right used
      return (.cons v (kids ++ kid fresh) right,used)) := by
  rw [create,createWith,bud]
  by_cases apart : v.label ∩ A.finals = ∅
  · simp only [apart,if_true]; rfl
  · simp only [apart,if_false,Naming.plain]
    cases Name.allocate A.nameCount used <;> rfl

theorem create_exact (f : Forest Vertex) :
    ∀ {used g after}, create A f used = .ok (g,after) ↔ Grows A f used g after := by
  induction f with
  | nil =>
    intro used g after
    constructor
    · intro done; cases done; exact .nil
    · intro grows; cases grows; rfl
  | cons v kids right below ih =>
    intro used g after
    rw [create_cons]
    constructor
    · intro done
      obtain ⟨⟨fresh,named⟩,first,done⟩ := bind_eq_ok.mp done
      obtain ⟨⟨kids',between⟩,second,done⟩ := bind_eq_ok.mp done
      obtain ⟨⟨right',last⟩,third,done⟩ := bind_eq_ok.mp done
      cases done
      exact .cons (bud_exact.mp first) (below.mp second) (ih.mp third)
    · intro grows
      cases grows with
      | cons first second third =>
        simp only [bud_exact.mpr first,below.mpr second,ih.mpr third,ok_bind,pure_eq_ok]

-- Names run out at a node, or further on.
theorem create_cons_error {v : Vertex} {kids right : Forest Vertex} {used : NatSet} {e : Exhausted}
    (failed : create A (.cons v kids right) used = .error e) :
    bud A v.label used = .error e ∨ ∃ fresh named, Buds A v.label used fresh named ∧
      (create A kids named = .error e ∨
        ∃ kids' between, Grows A kids named kids' between ∧ create A right between = .error e) := by
  rw [create_cons] at failed
  rcases bind_eq_error.mp failed with first | ⟨⟨fresh,named⟩,first,failed⟩
  · exact .inl first
  · refine .inr ⟨fresh,named,bud_exact.mp first,?_⟩
    rcases bind_eq_error.mp failed with second | ⟨⟨kids',between⟩,second,failed⟩
    · exact .inl second
    · refine .inr ⟨kids',between,(create_exact _).mp second,?_⟩
      rcases bind_eq_error.mp failed with third | ⟨_,_,done⟩
      · exact third
      · cases done

theorem Buds.used_subset {label used named : NatSet} {fresh : Option Vertex}
    (buds : Buds A label used fresh named) : used ⊆ named := by
  cases buds with
  | rest apart => exact fun _ present => present
  | grow meets free => grind

theorem Buds.names_kid {label used named : NatSet} {fresh : Option Vertex}
    (buds : Buds A label used fresh named) : (kid fresh).names = named \ used := by
  cases buds with
  | rest apart => simp only [kid,Forest.names_nil]; grind
  | grow meets free =>
    have absent := used.firstAbsent_not_mem
    simp only [kid,Forest.names_cons,Forest.names_nil]
    grind

theorem Buds.cover_kid {label used named : NatSet} {fresh : Option Vertex}
    (buds : Buds A label used fresh named) : (kid fresh).cover = label ∩ A.finals := by
  cases buds with
  | rest apart => rw [apart]; rfl
  | grow meets free => simp [kid]

theorem nested_kid (fresh : Option Vertex) : (kid fresh).Nested := by
  cases fresh with
  | none => trivial
  | some v => exact ⟨fun _ present => absurd present NatSet.not_mem_empty,trivial,trivial⟩

namespace Grows

variable {f g : Forest Vertex} {used after : NatSet}

theorem used_subset (grows : Grows A f used g after) : used ⊆ after := by
  induction grows with
  | nil => exact fun _ present => present
  | cons bud _ _ below beside => exact fun i present => beside i (below i (bud.used_subset i present))

-- What is in use afterwards was before, or is a name below the limit.
theorem given (grows : Grows A f used g after) :
    ∀ i ∈ after, i ∈ used ∨ i < A.nameCount := by
  induction grows with
  | nil => exact fun i present => .inl present
  | cons bud _ _ below beside =>
    intro i present
    rcases beside i present with between | small
    · rcases below i between with named | small
      · cases bud with
        | rest apart => exact .inl named
        | grow meets free => grind
      · exact .inr small
    · exact .inr small

theorem names_eq (grows : Grows A f used g after) : g.names = f.names ∪ (after \ used) := by
  induction grows with
  | nil => simp only [Forest.names_nil]; grind
  | cons bud below beside belowNames besideNames =>
    have first := bud.used_subset
    have second := below.used_subset
    have third := beside.used_subset
    simp only [Forest.names_cons,Forest.names_append,belowNames,besideNames,bud.names_kid]
    grind

theorem cover_eq (grows : Grows A f used g after) : g.cover = f.cover := by
  induction grows with
  | nil => rfl
  | cons _ _ _ _ beside => rw [Forest.cover_cons,Forest.cover_cons,beside]

theorem nested (grows : Grows A f used g after) (nested : f.Nested) : g.Nested := by
  induction grows with
  | nil => trivial
  | cons bud below beside belowNested besideNested =>
    obtain ⟨inside,kidsNested,rightNested⟩ := nested
    refine ⟨?_,Forest.nested_append.mpr ⟨belowNested kidsNested,nested_kid _⟩,besideNested rightNested⟩
    rw [Forest.cover_append,below.cover_eq,bud.cover_kid]
    grind

end Grows
end BuchiToRabin.Step
