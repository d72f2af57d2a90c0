import BuchiToRabin.Proofs.Step.Claim
import BuchiToRabin.Proofs.Step.Traversal
namespace BuchiToRabin.Step

variable {A : Automaton} {a : Nat}

-- What a successful traversal does at a root, whatever the labels and names: the root goes with all below
-- it; or it stays and its kids give way; or it stays with its kids. Beside the forest that is built stands
-- the one with all fresh nodes.
inductive Visits (A : Automaton) (a : Nat) :
    Forest Vertex → Pass → Forest Vertex → Forest Vertex → Pass → Prop where
  | nil : Visits A a .nil p .nil .nil p
  | gone (empty : A.post a v.label ∩ p.unseen = ∅)
      (first : Buds A (A.post a v.label) p.reserved fresh named)
      (below : Grows A (advance A a kids) named kids' between)
      (beside : Visits A a right {p with
        reserved := between
        used := ((p.used ∪ (named \ p.reserved)) \ (kid fresh).names.insert v.name) \ kids.names} right' rest q) :
      Visits A a (.cons v kids right) p (.cons ⟨v.name,A.post a v.label,false⟩ (kids' ++ kid fresh) right') rest q
  | covered (stays : A.post a v.label ∩ p.unseen ≠ ∅)
      (first : Buds A (A.post a v.label) p.reserved fresh named)
      (below : Visits A a kids {p with reserved := named,used := p.used ∪ (named \ p.reserved)} kids' old m)
      (all : p.unseen.card - (m.unseen \ (kid fresh).cover).card = (A.post a v.label ∩ p.unseen).card)
      (beside : Visits A a right ⟨m.reserved,
        (m.used \ dropped (kid fresh) m.unseen) \ (old ++ kept (kid fresh) m.unseen).names,
        (m.unseen \ (kid fresh).cover) \ (A.post a v.label ∩ p.unseen)⟩ right' rest q) :
      Visits A a (.cons v kids right) p (.cons ⟨v.name,A.post a v.label,false⟩ (kids' ++ kid fresh) right')
        (.cons ⟨v.name,A.post a v.label ∩ p.unseen,true⟩ .nil rest) q
  | opened (stays : A.post a v.label ∩ p.unseen ≠ ∅)
      (first : Buds A (A.post a v.label) p.reserved fresh named)
      (below : Visits A a kids {p with reserved := named,used := p.used ∪ (named \ p.reserved)} kids' old m)
      (more : p.unseen.card - (m.unseen \ (kid fresh).cover).card ≠ (A.post a v.label ∩ p.unseen).card)
      (beside : Visits A a right ⟨m.reserved,m.used \ dropped (kid fresh) m.unseen,
        (m.unseen \ (kid fresh).cover) \ (A.post a v.label ∩ p.unseen)⟩ right' rest q) :
      Visits A a (.cons v kids right) p (.cons ⟨v.name,A.post a v.label,false⟩ (kids' ++ kid fresh) right')
        (.cons ⟨v.name,A.post a v.label ∩ p.unseen,false⟩ (old ++ kept (kid fresh) m.unseen) rest) q

theorem exists_visits (f : Forest Vertex) : ∀ {p built q}, visit A a f p = .ok (built,q) →
    ∃ g, Visits A a f p g built q := by
  induction f with
  | nil =>
    intro p built q done
    cases done
    exact ⟨.nil,.nil⟩
  | cons v kids right below ih =>
    intro p built q done
    cases budded : bud A (A.post a v.label) p.reserved with
    | error e =>
      rw [visit_cons,sprout_error budded] at done
      cases done
    | ok pair =>
      obtain ⟨fresh,named⟩ := pair
      have first := bud_exact.mp budded
      by_cases gone : A.post a v.label ∩ p.unseen = ∅
      · rw [visit_gone first gone] at done
        cases created : create A (advance A a kids) named with
        | error e =>
          rw [discard_error kids created] at done
          cases done
        | ok pair =>
          obtain ⟨kids',between⟩ := pair
          have second := (create_exact _).mp created
          rw [discard_ok kids second,ok_bind] at done
          obtain ⟨right',third⟩ := ih done
          exact ⟨_,.gone gone first second third⟩
      · rw [visit_stays first gone] at done
        obtain ⟨⟨old,m⟩,kidsDone,done⟩ := bind_eq_ok.mp done
        obtain ⟨kids',second⟩ := below kidsDone
        dsimp only at done
        split at done
        · rename_i all
          obtain ⟨⟨rest,q'⟩,rightDone,done⟩ := bind_eq_ok.mp done
          cases done
          obtain ⟨right',third⟩ := ih rightDone
          exact ⟨_,.covered gone first second all third⟩
        · rename_i more
          obtain ⟨⟨rest,q'⟩,rightDone,done⟩ := bind_eq_ok.mp done
          cases done
          obtain ⟨right',third⟩ := ih rightDone
          exact ⟨_,.opened gone first second more third⟩

-- Names of nodes that go were in use before or came at their own root, so what is named further right may be
-- named first.
theorem used_join {used reserved between after here lost : NatSet} (grow : reserved ⊆ between)
    (more : between ⊆ after) (known : here ⊆ between) :
    ((used ∪ (between \ reserved)) \ here ∪ (after \ between)) \ lost =
      (used ∪ (after \ reserved)) \ (here ∪ lost) := by
  grind

section
variable {v : Vertex} {kids kids' old : Forest Vertex} {p m : Pass} {fresh : Option Vertex}
  {named between unseen left lost : NatSet}

theorem claim_grown (below : claim kids' unseen = (old,left)) (fresh : Option Vertex) :
    claim (kids' ++ kid fresh) unseen = (old ++ kept (kid fresh) left,left \ (kid fresh).cover) := by
  rw [claim_append,below,(claim_nested _ (nested_kid fresh) _).1]

theorem waived_grown (below : claim kids' unseen = (old,left)) (fresh : Option Vertex) :
    waived (kids' ++ kid fresh) unseen = waived kids' unseen ∪ dropped (kid fresh) left := by
  rw [waived_append,below,(claim_nested _ (nested_kid fresh) _).2]

theorem names_grown (first : Buds A (A.post a v.label) p.reserved fresh named)
    (second : Grows A (advance A a kids) named kids' between) :
    (kids' ++ kid fresh).names = kids.names ∪ (between \ p.reserved) := by
  have grow := first.used_subset
  have more := second.used_subset
  rw [Forest.names_append,second.names_eq,names_advance,first.names_kid]
  grind

theorem used_gone (inUse : p.used ⊆ p.reserved) (first : Buds A (A.post a v.label) p.reserved fresh named)
    (below : Grows A (advance A a kids) named kids' between) :
    ((p.used ∪ (named \ p.reserved)) \ (kid fresh).names.insert v.name) \ kids.names =
      (p.used ∪ (between \ p.reserved)) \ (kids' ++ kid fresh).names.insert v.name := by
  have grow := first.used_subset
  have more := below.used_subset
  rw [names_grown first below,first.names_kid]
  grind

theorem used_opened (grow : p.reserved ⊆ named) (more : named ⊆ m.reserved)
    (below : m.used = (p.used ∪ (named \ p.reserved) ∪ (m.reserved \ named)) \ lost) :
    m.used \ dropped (kid fresh) m.unseen =
      (p.used ∪ (m.reserved \ p.reserved)) \ (lost ∪ dropped (kid fresh) m.unseen) := by
  rw [below]
  grind

theorem used_covered (grow : p.reserved ⊆ named) (more : named ⊆ m.reserved) (trims : Trims kids' old lost)
    (below : m.used = (p.used ∪ (named \ p.reserved) ∪ (m.reserved \ named)) \ lost) :
    (m.used \ dropped (kid fresh) m.unseen) \ (old ++ kept (kid fresh) m.unseen).names =
      (p.used ∪ (m.reserved \ p.reserved)) \ (kids' ++ kid fresh).names := by
  rw [used_opened grow more below,Forest.names_append,Forest.names_append,←trims.names,
    ←names_kept (kid fresh) m.unseen]
  grind

end

namespace Visits

variable {f g built : Forest Vertex} {p q : Pass}

theorem grows (visits : Visits A a f p g built q) : Grows A (advance A a f) p.reserved g q.reserved := by
  induction visits with
  | nil => exact .nil
  | gone _ first below _ beside => exact .cons first below beside
  | covered _ first _ _ _ below beside => exact .cons first below beside
  | opened _ first _ _ _ below beside => exact .cons first below beside

theorem claims (visits : Visits A a f p g built q) : claim g p.unseen = (built,q.unseen) := by
  induction visits with
  | nil => rfl
  | gone empty _ _ _ beside => exact (claim_gone empty).trans beside
  | covered stays _ _ all _ below beside =>
    have claimed := claim_grown below
    rw [claim_covered stays (by rw [claimed]; exact all),claimed,beside]
  | opened stays _ _ more _ below beside =>
    have claimed := claim_grown below
    rw [claim_open stays (by rw [claimed]; exact more),claimed,beside]

theorem trims (visits : Visits A a f p g built q) : Trims g built (waived g p.unseen) := by
  have all := trims_claim g p.unseen
  rwa [visits.claims] at all

-- Where the names of the forest are in use, those that go are free again.
theorem used_eq (visits : Visits A a f p g built q) : f.names ⊆ p.reserved → p.used ⊆ p.reserved →
    q.used = (p.used ∪ (q.reserved \ p.reserved)) \ waived g p.unseen := by
  induction visits with
  | nil =>
    intro _ _
    rw [waived]
    grind
  | gone empty first below beside ih =>
    intro names inUse
    rw [Forest.names_cons] at names
    have grow := first.used_subset
    have more := below.used_subset
    have here := names_grown first below
    rw [used_gone inUse first below] at ih
    rw [ih (by grind) (by grind),used_join (by grind) beside.grows.used_subset (by grind),waived_gone empty]
  | covered stays first below all beside belowIh ih =>
    intro names inUse
    rw [Forest.names_cons] at names
    have grow := first.used_subset
    have more := below.grows.used_subset
    have here := names_grown first below.grows
    have claimed := claim_grown below.claims
    rw [used_covered grow more below.trims (belowIh (by grind) (by grind))] at ih
    rw [ih (by grind) (by grind),used_join (by grind) beside.grows.used_subset (by grind),
      waived_covered stays (by rw [claimed]; exact all),claimed]
  | opened stays first below more beside belowIh ih =>
    intro names inUse
    rw [Forest.names_cons] at names
    have grow := first.used_subset
    have later := below.grows.used_subset
    have here := names_grown first below.grows
    have claimed := claim_grown below.claims
    rw [used_opened grow later (belowIh (by grind) (by grind)),←waived_grown below.claims] at ih
    rw [ih (by grind) (by grind),used_join (by grind) beside.grows.used_subset,
      waived_open stays (by rw [claimed]; exact more),claimed]
    intro x going
    have standing := (trims_claim _ _).lost_subset x going
    grind

end Visits

-- A traversal of any forest: what it keeps is settled by labels, and the names reserved are those that the fresh
-- nodes take one rule at a time.
theorem visit_exact {f g : Forest Vertex} {p : Pass} {reserved : NatSet}
    (grows : Grows A (advance A a f) p.reserved g reserved) : ∃ q, visit A a f p = .ok ((claim g p.unseen).1,q) ∧
      q.reserved = reserved ∧ q.unseen = (claim g p.unseen).2 ∧
      (f.names ⊆ p.reserved → p.used ⊆ p.reserved → q.used = (p.used ∪ (reserved \ p.reserved)) \ waived g p.unseen) := by
  obtain ⟨built,q,ran,same⟩ := visit_returns f grows
  obtain ⟨g',visits⟩ := exists_visits f ran
  have once := ((create_exact _).mpr grows).symm.trans ((create_exact _).mpr visits.grows)
  cases once
  have claims := visits.claims
  rw [claims]
  exact ⟨q,ran,rfl,rfl,visits.used_eq⟩

def Pass.after (p : Pass) (g : Forest Vertex) (reserved : NatSet) : Pass :=
  ⟨reserved,(p.used ∪ (reserved \ p.reserved)) \ dropped g p.unseen,p.unseen \ g.cover⟩

theorem visit_ok (f : Forest Vertex) (nested : f.Nested) {p : Pass} {g : Forest Vertex} {reserved : NatSet}
    (names : f.names ⊆ p.reserved) (inUse : p.used ⊆ p.reserved)
    (grows : Grows A (advance A a f) p.reserved g reserved) :
    visit A a f p = .ok (kept g p.unseen,p.after g reserved) := by
  obtain ⟨⟨after,used,unseen⟩,ran,rfl,rfl,freed⟩ := visit_exact grows
  obtain ⟨same,lost⟩ := claim_nested g (grows.nested (nested_advance nested)) p.unseen
  have left : used = _ := freed names inUse
  rw [ran,Pass.after,left,same,lost]

end BuchiToRabin.Step
