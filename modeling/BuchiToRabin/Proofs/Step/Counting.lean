import BuchiToRabin.Proofs.Step.Flat
namespace BuchiToRabin.Step

-- The moment in the visit of a node when its kids are built, the fresh one last, and none of them is cut off yet.
-- The place of the node is reserved and vacant.
inductive Counts (A : Automaton) (a : Nat) (v : Vertex) (kids : Forest Vertex) (w : Writing) :
    List Nat → Writing → Prop where
  | mk (first : sprout A (A.post a v.label) w.toPass = .ok (fresh,p))
      (below : visitInto A a kids ⟨p,w.arena.reserve.2⟩ = .ok (old,mid))
      (last : settleInto fresh mid = .ok (new,stop)) : Counts A a v kids w (old ++ new) stop

-- What is known at that moment, where `label` is what the node keeps: the states that are no longer unseen are
-- those of its kids.
structure Tally (label : NatSet) (w : Writing) (places : List Nat) (stop : Writing) (built : Forest Vertex) : Prop where
  written : stop.arena = w.arena.reserve.2.behind built
  roots : places = built.rootPlaces (w.arena.size + 1)
  fall : w.unseen.card - stop.unseen.card = built.cover.card
  inside : built.cover ⊆ label
  test : w.unseen.card - stop.unseen.card = label.card ↔ built.cover = label

def Tally.root (name : Name) (label : NatSet) (built : Forest Vertex) : Forest Vertex :=
  if built.cover = label then .cons ⟨name,label,true⟩ .nil .nil else .cons ⟨name,label,false⟩ built .nil

variable {A : Automaton} {a : Nat} {v : Vertex} {f kids : Forest Vertex} {w x stop : Writing} {ks places : List Nat}

theorem sprout_inv {target : NatSet} {p q : Pass} {fresh : Option Vertex} (done : sprout A target p = .ok (fresh,q)) :
    ∃ named, Buds A target p.reserved fresh named ∧ q.reserved = named ∧ q.unseen = p.unseen := by
  cases budded : bud A target p.reserved with
  | error e =>
    rw [sprout_error budded] at done
    cases done
  | ok pair =>
    obtain ⟨fresh',named⟩ := pair
    have buds := bud_exact.mp budded
    rw [sprout_ok buds] at done
    cases done
    exact ⟨named,buds,rfl,rfl⟩

theorem visitInto_inv (ran : visitInto A a f w = .ok (ks,x)) :
    ∃ built q, visit A a f w.toPass = .ok (built,q) ∧ (ks,x) = Writing.put w.arena (built,q) := by
  rw [visitInto_eq] at ran
  cases visited : visit A a f w.toPass with
  | error e =>
    rw [visited] at ran
    cases ran
  | ok pair =>
    rw [visited] at ran
    exact ⟨pair.1,pair.2,rfl,(Except.ok.inj ran).symm⟩

theorem claim_unseen (f : Forest Vertex) : ∀ unseen, (claim f unseen).2 ⊆ unseen := by
  induction f with
  | nil => intro unseen q left; exact left
  | cons v kids right below ih =>
    intro unseen
    by_cases gone : v.label ∩ unseen = ∅
    · rw [claim_gone gone]
      exact ih unseen
    · have smaller : (claim kids unseen).2 \ (v.label ∩ unseen) ⊆ unseen := by
        intro q left
        exact below unseen q (NatSet.mem_sdiff.mp left).1
      by_cases all : unseen.card - (claim kids unseen).2.card = (v.label ∩ unseen).card
      · rw [claim_covered gone all]
        exact fun q left => smaller q (ih _ q left)
      · rw [claim_open gone all]
        exact fun q left => smaller q (ih _ q left)

namespace Counts

-- Whatever the labels, the kids are what a traversal makes of them and the fresh one on their new labels.
theorem exists_claim (counts : Counts A a v kids w places stop) : ∃ grown built,
    claim grown w.unseen = (built,stop.unseen) ∧
    grown.cover = A.post a kids.cover ∪ (A.post a v.label ∩ A.finals) ∧ (kids.Nested → grown.Nested) ∧
    stop.arena = w.arena.reserve.2.behind built ∧ places = built.rootPlaces (w.arena.size + 1) := by
  obtain ⟨first,below,last⟩ := counts
  rename_i fresh p old mid new
  obtain ⟨named,buds,-,unseen⟩ := sprout_inv first
  obtain ⟨built,q,ran,put⟩ := visitInto_inv below
  obtain ⟨rfl,rfl⟩ := Prod.mk.inj put
  obtain ⟨grown,visits⟩ := exists_visits kids ran
  rw [settleInto_eq,settle_eq] at last
  obtain ⟨rfl,rfl⟩ := Prod.mk.inj (Except.ok.inj last)
  have claimed := claim_grown (unseen ▸ visits.claims) fresh
  refine ⟨grown ++ kid fresh,_,claimed,?_,?_,?_,?_⟩
  · rw [Forest.cover_append,visits.grows.cover_eq,cover_advance,buds.cover_kid]
  · intro nested
    exact Forest.nested_append.mpr ⟨visits.grows.nested (nested_advance nested),nested_kid fresh⟩
  · exact Arena.behind_behind _ _ _
  · rw [Forest.rootPlaces_append,←Arena.size_reserve,←Arena.size_behind]

theorem unseen_subset (counts : Counts A a v kids w places stop) : stop.unseen ⊆ w.unseen := by
  obtain ⟨grown,built,claimed,-⟩ := counts.exists_claim
  have smaller := claim_unseen grown w.unseen
  rwa [claimed] at smaller

-- Kids further down take nothing from the unseen states that their parents do not hold, and dropped ones nothing
-- at all. So what is gone is what the roots built hold together.
theorem tally (counts : Counts A a v kids w places stop) (nested : (Forest.cons v kids .nil).Nested) :
    ∃ built, Tally (A.post a v.label ∩ w.unseen) w places stop built ∧ stop.unseen = w.unseen \ built.cover := by
  obtain ⟨grown,built,claimed,cover,below,written,roots⟩ := counts.exists_claim
  obtain ⟨inside,kidsNested,-⟩ := nested
  rw [(claim_nested grown (below kidsNested) w.unseen).1] at claimed
  obtain ⟨rfl,left⟩ := Prod.mk.inj claimed
  have within : grown.cover ⊆ A.post a v.label := by
    have moved := Automaton.post_mono (A := A) (a := a) inside
    rw [cover]
    grind
  have held : (kept grown w.unseen).cover ⊆ A.post a v.label ∩ w.unseen := by
    rw [cover_kept]
    grind
  have fall : w.unseen.card - stop.unseen.card = (kept grown w.unseen).cover.card := by
    rw [←left,NatSet.card_sub_card_sdiff,cover_kept]
  refine ⟨_,⟨written,roots,fall,held,?_⟩,?_⟩
  · rw [fall]
    constructor
    · intro same
      exact NatSet.eq_of_subset_of_card_le held (Nat.le_of_eq same.symm)
    · intro same
      rw [same]
  · rw [←left,cover_kept]
    grind

end Counts

theorem visitInto_gone (gone : A.post a v.label ∩ w.unseen = ∅)
    (ran : visitInto A a (.cons v kids .nil) w = .ok (ks,x)) : ks = [] ∧ x.arena = w.arena ∧ x.unseen = w.unseen := by
  obtain ⟨built,q,visited,put⟩ := visitInto_inv ran
  obtain ⟨rfl,rfl⟩ := Prod.mk.inj put
  obtain ⟨grown,visits⟩ := exists_visits _ visited
  cases visits with
  | gone _ _ _ beside =>
    cases beside
    exact ⟨rfl,Arena.behind_nil _,rfl⟩
  | covered stays => exact absurd gone stays
  | opened stays => exact absurd gone stays

-- A visit that lets the node stay passes the moment when its kids are counted, and fills its place last.
theorem visitInto_stays (stays : A.post a v.label ∩ w.unseen ≠ ∅)
    (ran : visitInto A a (.cons v kids .nil) w = .ok (ks,x)) : ∃ places stop, Counts A a v kids w places stop ∧
      ks = [w.arena.size] ∧
      (w.unseen.card - stop.unseen.card = (A.post a v.label ∩ w.unseen).card →
        Writing.collapse w.arena.size ⟨v.name,A.post a v.label ∩ w.unseen,true⟩
          {stop with unseen := stop.unseen \ (A.post a v.label ∩ w.unseen)} = .ok x) ∧
      (w.unseen.card - stop.unseen.card ≠ (A.post a v.label ∩ w.unseen).card →
        Writing.fill w.arena.size ⟨⟨v.name,A.post a v.label ∩ w.unseen,false⟩,places⟩
          {stop with unseen := stop.unseen \ (A.post a v.label ∩ w.unseen)} = .ok x) := by
  rw [visitInto] at ran
  cases first : sprout A (A.post a v.label) w.toPass with
  | error e =>
    rw [first] at ran
    cases ran
  | ok pair =>
    obtain ⟨fresh,p⟩ := pair
    obtain ⟨-,-,-,unseen⟩ := sprout_inv first
    simp only [first,mapError_ok,ok_bind,unseen] at ran
    rw [if_neg stays] at ran
    obtain ⟨⟨old,mid⟩,below,ran⟩ := bind_eq_ok.mp ran
    obtain ⟨⟨new,stop⟩,last,ran⟩ := bind_eq_ok.mp ran
    dsimp only at ran
    refine ⟨_,stop,.mk first below last,?_⟩
    split at ran
    · rename_i all
      obtain ⟨y,done,ran⟩ := bind_eq_ok.mp ran
      cases ran
      exact ⟨rfl,fun _ => done,fun more => absurd all more⟩
    · rename_i more
      obtain ⟨y,done,ran⟩ := bind_eq_ok.mp ran
      cases ran
      exact ⟨rfl,fun all => absurd all more,fun _ => done⟩

-- The count at a node never runs below zero, whatever the labels. Where labels lie in the labels above them, it
-- tells whether the kids hold all that the node keeps, and the node takes from the unseen states just its new
-- label. A node without unseen states leaves no trace, and another one is written as one tree at the place
-- reserved for it.
theorem visitInto_counts (A : Automaton) (a : Nat) (v : Vertex) (kids : Forest Vertex) (w : Writing) :
    (∀ places stop, Counts A a v kids w places stop → stop.unseen.card ≤ w.unseen.card) ∧
    ((Forest.cons v kids .nil).Nested → ∀ ks x, visitInto A a (.cons v kids .nil) w = .ok (ks,x) →
      x.unseen = w.unseen \ A.post a v.label ∧
      (ks = [] ∧ x.arena = w.arena ↔ A.post a v.label ∩ w.unseen = ∅) ∧
      (A.post a v.label ∩ w.unseen ≠ ∅ → ks = [w.arena.size] ∧ ∃ places stop built,
        Counts A a v kids w places stop ∧ Tally (A.post a v.label ∩ w.unseen) w places stop built ∧
        x.arena = w.arena.behind (Tally.root v.name (A.post a v.label ∩ w.unseen) built))) := by
  refine ⟨fun places stop counts => NatSet.card_le_of_subset counts.unseen_subset,?_⟩
  intro nested ks x ran
  by_cases gone : A.post a v.label ∩ w.unseen = ∅
  · obtain ⟨none,written,unseen⟩ := visitInto_gone gone ran
    refine ⟨?_,iff_of_true ⟨none,written⟩ gone,fun stays => absurd gone stays⟩
    rw [NatSet.inter_eq_empty_iff] at gone
    rw [unseen]
    grind
  · obtain ⟨places,stop,counts,root,collapses,fills⟩ := visitInto_stays gone ran
    obtain ⟨built,tally,left⟩ := counts.tally nested
    obtain ⟨p,arena⟩ := stop
    have written : arena = w.arena.reserve.2.behind built := tally.written
    have roots := tally.roots
    have final : x.arena = w.arena.behind (Tally.root v.name (A.post a v.label ∩ w.unseen) built) ∧
        x.unseen = p.unseen \ (A.post a v.label ∩ w.unseen) := by
      subst written roots
      by_cases all : built.cover = A.post a v.label ∩ w.unseen
      · have done := collapses (tally.test.mpr all)
        rw [Writing.collapse_eq] at done
        cases done
        rw [Tally.root,if_pos all]
        exact ⟨rfl,rfl⟩
      · have done := fills fun same => all (tally.test.mp same)
        rw [Writing.fill_eq] at done
        cases done
        rw [Tally.root,if_neg all]
        exact ⟨rfl,rfl⟩
    refine ⟨?_,iff_of_false ?_ gone,fun _ => ⟨root,places,_,built,counts,tally,final.1⟩⟩
    · have inside := tally.inside
      rw [final.2,left]
      grind
    · intro none
      rw [root] at none
      cases none.1

def midway : Writing := ⟨⟨.ofList [0,1,2],.ofList [0,1,2],.ofList [0,1,3]⟩,(∅ : Arena Vertex).reserve.2⟩

def doubled : Forest Vertex := .cons ⟨1,.ofList [1],false⟩ (.cons ⟨2,.ofList [1],true⟩ .nil .nil) .nil

-- Every node has a fresh kid with the state 1, and it is counted once: the upper one of the two is covered, and
-- their parent, which keeps the state 0 for itself, is not.
theorem visitInto_counts_midway :
    (Forest.cons ⟨0,.ofList [0,1],true⟩ doubled .nil).Nested ∧
      ∃ x, visitInto .guess 1 (.cons ⟨0,.ofList [0,1],true⟩ doubled .nil) midway = .ok ([1],x) ∧
        x.unseen = .ofList [3] ∧ x.arena = midway.arena.behind
          (.cons ⟨0,.ofList [0,1],false⟩ (.cons ⟨1,.ofList [1],true⟩ .nil .nil) .nil) ∧
        ∃ places stop built, Counts .guess 1 ⟨0,.ofList [0,1],true⟩ doubled midway places stop ∧
          Tally (.ofList [0,1]) midway places stop built := by
  have nested : (Forest.cons ⟨0,.ofList [0,1],true⟩ doubled .nil).Nested := by decide +kernel
  have label : Automaton.guess.post 1 (.ofList [0,1]) ∩ midway.unseen = .ofList [0,1] := by decide +kernel
  have left : midway.unseen \ Automaton.guess.post 1 (.ofList [0,1]) = .ofList [3] := by decide +kernel
  have given : (visitInto .guess 1 (.cons ⟨0,.ofList [0,1],true⟩ doubled .nil) midway).toOption.map
      (fun r => (r.1,r.2.arena)) = some ([1],midway.arena.behind
        (.cons ⟨0,.ofList [0,1],false⟩ (.cons ⟨1,.ofList [1],true⟩ .nil .nil) .nil)) := by decide +kernel
  cases ran : visitInto .guess 1 (.cons ⟨0,.ofList [0,1],true⟩ doubled .nil) midway with
  | error e =>
    rw [ran] at given
    cases given
  | ok pair =>
    obtain ⟨ks,x⟩ := pair
    rw [ran] at given
    obtain ⟨rfl,arena⟩ := Prod.mk.inj (Option.some.inj given)
    obtain ⟨unseen,-,stays⟩ := (visitInto_counts .guess 1 ⟨0,.ofList [0,1],true⟩ doubled midway).2 nested _ x ran
    rw [label] at stays
    obtain ⟨-,places,stop,built,counts,tally,-⟩ := stays (by decide +kernel)
    exact ⟨nested,x,rfl,unseen.trans left,arena,places,stop,built,counts,tally⟩

end BuchiToRabin.Step
