import BuchiToRabin.Proofs.Step.Growth
import BuchiToRabin.Proofs.Step.Kept
import BuchiToRabin.Step.Fused
namespace BuchiToRabin.Step

variable {A : Automaton} {a : Nat}

theorem sprout_ok {target named : NatSet} {fresh : Option Vertex} {p : Pass}
    (buds : Buds A target p.reserved fresh named) :
    sprout A target p = .ok (fresh,{p with reserved := named,used := p.used ∪ (named \ p.reserved)}) := by
  obtain ⟨reserved,used,unseen⟩ := p
  cases buds with
  | rest apart =>
    have same : used ∪ (reserved \ reserved) = used := by grind
    rw [sprout,sproutWith,if_pos apart]
    simp only [same]
  | grow meets free =>
    have absent := reserved.firstAbsent_not_mem
    have same : used ∪ (reserved.insert reserved.firstAbsent \ reserved) =
        used.insert reserved.firstAbsent := by grind
    simp only [sprout,sproutWith,if_neg meets,Naming.plain,Name.allocate,if_pos free,same]
    rfl

theorem sprout_error {target : NatSet} {p : Pass} {e : Exhausted}
    (failed : bud A target p.reserved = .error e) : sprout A target p = .error e := by
  obtain ⟨meets,taken⟩ := bud_error failed
  rw [sprout,sproutWith,if_neg meets]
  show (Name.allocate A.nameCount p.reserved >>= _) = _
  rw [taken]
  rfl

theorem forget_eq (v : Vertex) (fresh : Option Vertex) (p : Pass) :
    forget v fresh p = {p with used := p.used \ ((kid fresh).names.insert v.name)} := by
  cases fresh with
  | none =>
    have same : p.used.erase v.name = p.used \ (∅ : NatSet).insert v.name := by grind
    simp only [forget,kid,Forest.names_nil,same]
  | some w =>
    have same : (p.used.erase v.name).erase w.name =
        p.used \ ((∅ ∪ ∅ : NatSet).insert w.name).insert v.name := by grind
    simp only [forget,kid,Forest.names_cons,Forest.names_nil,same]

-- A fresh kid is treated like any other node without kids.
theorem settle_eq (fresh : Option Vertex) (p : Pass) :
    settle fresh p = (kept (kid fresh) p.unseen,
      {p with used := p.used \ dropped (kid fresh) p.unseen,unseen := p.unseen \ (kid fresh).cover}) := by
  obtain ⟨reserved,used,unseen⟩ := p
  cases fresh with
  | none => simp [settle,kid]
  | some v =>
    by_cases gone : v.label ∩ unseen = ∅
    · have names : used.erase v.name = used \ ((∅ : NatSet).insert v.name ∪ ∅) := by grind
      have states : unseen = unseen \ (v.label ∪ ∅) := by
        rw [NatSet.inter_eq_empty_iff] at gone
        grind
      simp only [settle,kid,kept_gone gone,dropped_gone gone,if_pos gone,kept_nil,dropped_nil,
        Forest.names_nil,Forest.cover_cons,Forest.cover_nil,names,←states]
    · have uncovered : (Forest.nil : Forest Vertex).cover ∩ unseen ≠ v.label ∩ unseen := by
        rw [Forest.cover_nil,NatSet.empty_inter]
        exact fun same => gone same.symm
      have states : unseen \ (v.label ∩ unseen) = unseen \ (v.label ∪ ∅) := by grind
      simp only [settle,kid,kept_open gone uncovered,dropped_open gone uncovered,if_neg gone,kept_nil,
        dropped_nil,Forest.cover_cons,Forest.cover_nil,NatSet.union_empty,NatSet.sdiff_empty]
      rw [NatSet.union_empty] at states
      rw [states]

theorem discard_cons (v : Vertex) (kids right : Forest Vertex) (p : Pass) :
    discard A a (.cons v kids right) p = (do
      let (_,reserved) ← bud A (A.post a v.label) p.reserved
      let p ← discard A a kids {p with reserved,used := p.used.erase v.name}
      discard A a right p) := by
  rw [discard,discardWith,bud]
  by_cases apart : A.post a v.label ∩ A.finals = ∅
  · have none : (A.post a v.label).intersects A.finals = false := by
      rw [NatSet.intersects_eq_false_iff,←NatSet.inter_eq_empty_iff]
      exact apart
    simp only [none,apart,if_true,Bool.false_eq_true,if_false]
    rfl
  · have some : (A.post a v.label).intersects A.finals = true := by
      rw [←Bool.not_eq_false,NatSet.intersects_eq_false_iff,←NatSet.inter_eq_empty_iff]
      exact apart
    simp only [some,apart,if_true,if_false,Naming.plain]
    cases Name.allocate A.nameCount p.reserved <;> rfl

-- Below a dropped node nothing happens but naming and forgetting.
theorem discard_ok (f : Forest Vertex) : ∀ {p g reserved},
    Grows A (advance A a f) p.reserved g reserved →
      discard A a f p = .ok {p with reserved,used := p.used \ f.names} := by
  induction f with
  | nil =>
    intro p g reserved grows
    cases grows
    simp [discard,discardWith]
  | cons v kids right below ih =>
    intro p g reserved grows
    rw [advance_cons] at grows
    cases grows with
    | cons first second third =>
      have names : ((p.used.erase v.name) \ kids.names) \ right.names =
          p.used \ (kids.names ∪ right.names).insert v.name := by grind
      have kidsDone := below (p := {p with reserved := _,used := p.used.erase v.name}) second
      have rightDone := ih (p := {p with reserved := _,used := p.used.erase v.name \ kids.names}) third
      simp only [discard_cons,bud_exact.mpr first,ok_bind,kidsDone,rightDone,names,Forest.names_cons]

theorem discard_error (f : Forest Vertex) : ∀ {p : Pass} {e},
    create A (advance A a f) p.reserved = .error e → discard A a f p = .error e := by
  induction f with
  | nil => intro p e failed; cases failed
  | cons v kids right below ih =>
    intro p e failed
    rw [advance_cons] at failed
    rw [discard_cons]
    rcases create_cons_error failed with first | ⟨fresh,named,first,second | ⟨kids',between,second,third⟩⟩
    · exact bind_eq_error.mpr (.inl first)
    · rw [bud_exact.mpr first,ok_bind]
      exact bind_eq_error.mpr (.inl (below second))
    · rw [bud_exact.mpr first,ok_bind]
      exact bind_eq_error.mpr (.inr ⟨_,discard_ok kids second,ih third⟩)

section
variable {v : Vertex} {kids right : Forest Vertex} {p : Pass} {fresh : Option Vertex} {named : NatSet}

theorem visit_cons (v : Vertex) (kids right : Forest Vertex) (p : Pass) :
    visit A a (.cons v kids right) p = (do
      let (fresh,p) ← sprout A (A.post a v.label) p
      let label := A.post a v.label ∩ p.unseen
      if label = ∅ then
        let p ← discard A a kids (forget v fresh p)
        visit A a right p
      else
        let before := p.unseen.card
        let (old,p) ← visit A a kids p
        let (new,p) := settle fresh p
        let kids := old ++ new
        let claimed := before - p.unseen.card
        let p := {p with unseen := p.unseen \ label}
        if claimed = label.card then
          let (right,p) ← visit A a right {p with used := p.used \ kids.names}
          return (.cons ⟨v.name,label,true⟩ .nil right,p)
        else
          let (right,p) ← visit A a right p
          return (.cons ⟨v.name,label,false⟩ kids right,p)) := rfl

theorem visit_gone (first : Buds A (A.post a v.label) p.reserved fresh named)
    (gone : A.post a v.label ∩ p.unseen = ∅) :
    visit A a (.cons v kids right) p = (do
      let q ← discard A a kids {p with
        reserved := named
        used := (p.used ∪ (named \ p.reserved)) \ (kid fresh).names.insert v.name}
      visit A a right q) := by
  simp only [visit_cons,sprout_ok first,ok_bind,gone,if_true,forget_eq]

theorem visit_stays (first : Buds A (A.post a v.label) p.reserved fresh named)
    (stays : A.post a v.label ∩ p.unseen ≠ ∅) :
    visit A a (.cons v kids right) p = (do
      let (old,q) ← visit A a kids {p with reserved := named,used := p.used ∪ (named \ p.reserved)}
      let label := A.post a v.label ∩ p.unseen
      let built := old ++ kept (kid fresh) q.unseen
      let left := q.unseen \ (kid fresh).cover
      let used := q.used \ dropped (kid fresh) q.unseen
      if p.unseen.card - left.card = label.card then
        let (right,q) ← visit A a right {q with used := used \ built.names,unseen := left \ label}
        return (.cons ⟨v.name,label,true⟩ .nil right,q)
      else
        let (right,q) ← visit A a right {q with used,unseen := left \ label}
        return (.cons ⟨v.name,label,false⟩ built right,q)) := by
  simp only [visit_cons,sprout_ok first,ok_bind,stays,if_false,settle_eq]

end

-- Whatever the forest: the names reserved are those that the fresh nodes take one rule at a time.
theorem visit_returns (f : Forest Vertex) : ∀ {p : Pass} {g reserved},
    Grows A (advance A a f) p.reserved g reserved →
      ∃ built q, visit A a f p = .ok (built,q) ∧ q.reserved = reserved := by
  induction f with
  | nil =>
    intro p g reserved grows
    cases grows
    exact ⟨.nil,p,rfl,rfl⟩
  | cons v kids right below ih =>
    intro p g reserved grows
    rw [advance_cons] at grows
    cases grows with
    | cons first second third =>
      by_cases gone : A.post a v.label ∩ p.unseen = ∅
      · rw [visit_gone first gone,discard_ok kids second,ok_bind]
        exact ih third
      · obtain ⟨old,q,ran,rfl⟩ := below (p := {p with reserved := _,used := p.used ∪ (_ \ p.reserved)}) second
        rw [visit_stays first gone,ran,ok_bind]
        dsimp only
        split
        · obtain ⟨right',q',ran',same⟩ := ih (p := {q with
            used := (q.used \ dropped (kid _) q.unseen) \ (old ++ kept (kid _) q.unseen).names
            unseen := (q.unseen \ (kid _).cover) \ (A.post a v.label ∩ p.unseen)}) third
          rw [ran',ok_bind]
          exact ⟨_,q',rfl,same⟩
        · obtain ⟨right',q',ran',same⟩ := ih (p := {q with
            used := q.used \ dropped (kid _) q.unseen
            unseen := (q.unseen \ (kid _).cover) \ (A.post a v.label ∩ p.unseen)}) third
          rw [ran',ok_bind]
          exact ⟨_,q',rfl,same⟩

theorem visit_error (f : Forest Vertex) : ∀ {p : Pass} {e},
    create A (advance A a f) p.reserved = .error e → visit A a f p = .error e := by
  induction f with
  | nil => intro p e failed; cases failed
  | cons v kids right below ih =>
    intro p e failed
    rw [advance_cons] at failed
    rcases create_cons_error failed with first | ⟨fresh,named,first,second | ⟨kids',between,second,third⟩⟩
    · rw [visit_cons]
      exact bind_eq_error.mpr (.inl (sprout_error first))
    · by_cases gone : A.post a v.label ∩ p.unseen = ∅
      · rw [visit_gone first gone]
        exact bind_eq_error.mpr (.inl (discard_error kids second))
      · rw [visit_stays first gone]
        exact bind_eq_error.mpr (.inl (below second))
    · by_cases gone : A.post a v.label ∩ p.unseen = ∅
      · rw [visit_gone first gone]
        exact bind_eq_error.mpr (.inr ⟨_,discard_ok kids second,ih third⟩)
      · obtain ⟨old,q,ran,rfl⟩ := visit_returns kids
          (p := {p with reserved := named,used := p.used ∪ (named \ p.reserved)}) second
        rw [visit_stays first gone,ran,ok_bind]
        dsimp only
        split
        · exact bind_eq_error.mpr (.inl (ih third))
        · exact bind_eq_error.mpr (.inl (ih third))

theorem fused_eq (A : Automaton) (a : Nat) (t : Tree) : fused A a t = (match t.root with
    | none => .ok .dead
    | some r => do
      let (f,p) ← visit A a r.forest ⟨t.used,t.used,.full A.stateCount⟩
      return .ofForest f p.used) := rfl

end BuchiToRabin.Step
