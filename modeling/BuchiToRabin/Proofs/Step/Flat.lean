import BuchiToRabin.Proofs.Step.Preservation
import BuchiToRabin.Proofs.Tree.Flat
import BuchiToRabin.Step.Flat
namespace BuchiToRabin.Step

variable {A : Automaton} {a : Nat}

theorem erase_layout (f : Forest Vertex) : ∀ (start : Nat) (names : NatSet),
    (f.layout start).foldl (fun names s => names.erase s.data.name) names = names \ f.names := by
  induction f with
  | nil => intro start names; exact (NatSet.sdiff_empty names).symm
  | cons v kids right below ih =>
    intro start names
    rw [Forest.layout,List.foldl_cons,List.foldl_append,below,ih,Forest.names_cons]
    grind

namespace Writing

-- A node that was reserved before its kids were written is filled, with them or instead of them.
theorem fill_eq (p : Pass) (x : Arena Vertex) (v : Vertex) (kids : Forest Vertex) :
    Writing.fill x.size ⟨v,kids.rootPlaces (x.size + 1)⟩ ⟨p,x.reserve.2.behind kids⟩ =
      .ok ⟨p,x.behind (.cons v kids .nil)⟩ := by
  rw [fill,Arena.fill_behind]
  rfl

theorem fill_leaf (p : Pass) (x : Arena Vertex) (v : Vertex) :
    Writing.fill x.size ⟨v,[]⟩ ⟨p,x.reserve.2⟩ = .ok ⟨p,x.behind (.cons v .nil .nil)⟩ := by
  have leaf := fill_eq p x v .nil
  rwa [Arena.behind_nil] at leaf

theorem collapse_eq (p : Pass) (x : Arena Vertex) (v : Vertex) (kids : Forest Vertex) :
    Writing.collapse x.size v ⟨p,x.reserve.2.behind kids⟩ =
      .ok ⟨{p with used := p.used \ kids.names},x.behind (.cons v .nil .nil)⟩ := by
  rw [collapse,Arena.cut_behind]
  dsimp only
  rw [erase_layout]
  exact fill_leaf _ x v

-- What a traversal has built, written to the end of the arena it started with.
def put (x : Arena Vertex) (r : Forest Vertex × Pass) : List Nat × Writing :=
  (r.1.rootPlaces x.size,⟨r.2,x.behind r.1⟩)

end Writing

theorem settleInto_eq (fresh : Option Vertex) (w : Writing) :
    settleInto fresh w = .ok (Writing.put w.arena (settle fresh w.toPass)) := by
  obtain ⟨p,x⟩ := w
  cases fresh with
  | none => rw [settleInto,settle,Writing.put,Arena.behind_nil]; rfl
  | some v =>
    rw [settleInto,settle]
    dsimp only
    split
    · rw [Writing.put,Arena.behind_nil]; rfl
    · rw [show x.reserve.1 = x.size from rfl,Writing.fill_leaf]
      rfl

-- Trees further right are written behind the first one.
theorem visitInto_beside {right : Forest Vertex} {q : Pass} {x : Arena Vertex} {v : Vertex} {kids : Forest Vertex}
    (beside : visitInto A a right ⟨q,x.behind (.cons v kids .nil)⟩ =
      Writing.put (x.behind (.cons v kids .nil)) <$> (visit A a right q).mapError .exhausted) :
    (do let (ks,w) ← visitInto A a right ⟨q,x.behind (.cons v kids .nil)⟩; return (x.size :: ks,w)) =
      Writing.put x <$> (do
        let (right,q) ← visit A a right q
        return (Forest.cons v kids right,q) : Except Exhausted _).mapError .exhausted := by
  rw [beside]
  cases visit A a right q with
  | error e => rfl
  | ok pair =>
    obtain ⟨rest,q⟩ := pair
    have place : (x.behind (.cons v kids .nil)).size = x.size + 1 + kids.size := by
      rw [Arena.size_behind,Forest.add_size_cons,Forest.size,Nat.add_zero]
    show Except.ok (x.size :: rest.rootPlaces (x.behind (.cons v kids .nil)).size,Writing.mk q _) = _
    rw [Arena.behind_behind,place]
    rfl

-- The arena is a copy of what the traversal builds: it holds the layout, behind what it held before.
theorem visitInto_eq (f : Forest Vertex) : ∀ w : Writing,
    visitInto A a f w = Writing.put w.arena <$> (visit A a f w.toPass).mapError .exhausted := by
  induction f with
  | nil =>
    intro w
    rw [visitInto]
    show _ = Except.ok (Writing.put w.arena (.nil,w.toPass))
    rw [Writing.put,Arena.behind_nil]
    rfl
  | cons v kids right below ih =>
    intro w
    obtain ⟨p,x⟩ := w
    rw [visitInto,visit_cons]
    dsimp only
    cases sprout A (A.post a v.label) p with
    | error e => rfl
    | ok pair =>
      obtain ⟨fresh,p⟩ := pair
      simp only [mapError_ok,ok_bind]
      by_cases gone : A.post a v.label ∩ p.unseen = ∅
      · rw [if_pos gone,if_pos gone]
        cases discard A a kids (forget v fresh p) with
        | error e => rfl
        | ok p => exact ih ⟨p,x⟩
      · rw [if_neg gone,if_neg gone,below]
        cases visit A a kids p with
        | error e => rfl
        | ok pair =>
          obtain ⟨old,q⟩ := pair
          simp only [mapError_ok,Except.map_ok,ok_bind,settleInto_eq,Writing.put]
          obtain ⟨new,q⟩ := settle fresh q
          have kidsPlaces := Forest.rootPlaces_append new old (x.size + 1)
          rw [Arena.size_behind,Arena.size_reserve,Arena.behind_behind,←kidsPlaces]
          rw [show x.reserve.1 = x.size from rfl]
          split
          · rw [Writing.collapse_eq]
            exact visitInto_beside (ih _)
          · rw [Writing.fill_eq]
            exact visitInto_beside (ih _)

theorem visit_single {r : Node} {p q : Pass} {built : Forest Vertex} (ran : visit A a r.forest p = .ok (built,q)) :
    (Tree.ofForest built q.used).forest = built := by
  obtain ⟨g,visits⟩ := exists_visits r.forest ran
  exact forest_ofForest visits.grows visits.trims q.used

-- The stored tree is stepped like its recursive form, whatever tree it is, and no assertion fails.
theorem stepFlat_eq (m : Method) (A : Automaton) (a : Nat) (x : FlatTree) :
    m.stepFlat A a x = Tree.flat <$> (m.step A a x.tree).mapError .exhausted := by
  cases m with
  | fused =>
    show fusedFlat A a x = Tree.flat <$> (fused A a ⟨x.root?,x.used⟩).mapError _
    rw [fusedFlat,fused_eq]
    cases x.root? with
    | none => rfl
    | some r =>
      dsimp only
      rw [visitInto_eq]
      dsimp only
      cases ran : visit A a r.forest ⟨x.used,x.used,.full A.stateCount⟩ with
      | error e => rfl
      | ok pair =>
        obtain ⟨built,q⟩ := pair
        have stored := FlatTree.store_behind (.ofForest built q.used)
        rw [visit_single ran,Tree.used_ofForest] at stored
        simp only [mapError_ok,Except.map_ok,ok_bind,Writing.put,stored,pure_eq_ok]
  | byRule =>
    show byRuleFlat A a x = Tree.flat <$> (byRule A a ⟨x.root?,x.used⟩).mapError _
    rw [byRuleFlat]
    cases x.root? with
    | none => rfl
    | some r =>
      dsimp only
      cases byRule A a ⟨some r,x.used⟩ with
      | error e => rfl
      | ok t => simp only [mapError_ok,Except.map_ok,ok_bind,FlatTree.write_eq]

end Step

namespace FlatTree

-- Where stored trees come from: what is built by hand, initial trees, and steps of any tree at all.
inductive Made : FlatTree → Prop where
  | dead : Made .dead
  | write {used : NatSet} (done : write root used = .ok x) : Made x
  | ofRoot (done : ofRoot r = .ok x) : Made x
  | initial (done : initial A = .ok x) : Made x
  | step (done : Method.stepFlat m A a x = .ok y) : Made y

-- What is stored says the same as the recursive form. `walk` bounds the visits; more of them find no more.
structure Faithful (x : FlatTree) : Prop where
  order : x.slots.map Slot.data = x.tree.vertices
  layout : x.slots = x.tree.forest.layout 0
  nodes : x.nodes = x.tree.forest.nodes
  subtree : ∀ k < x.size, ∃ n, x.node? k = some n ∧ x.subtree k = List.range' k n.size ∧
    ∀ more, Layout.walk x.slots (n.size + more) [k] = List.range' k n.size
  again : ∀ used, FlatTree.write x.root? used = .ok ⟨x.slots,used⟩
  digest : fingerprint x = x.root?.elim 0 fingerprint
  text : x.render = x.tree.render

variable {x y : FlatTree}

theorem Made.exists_flat (made : Made x) : ∃ t : Tree, x = t.flat := by
  cases made with
  | dead => exact ⟨.dead,rfl⟩
  | write done =>
    rw [write_eq] at done
    exact ⟨_,(Except.ok.inj done).symm⟩
  | ofRoot done =>
    rw [ofRoot_eq] at done
    exact ⟨_,(Except.ok.inj done).symm⟩
  | initial done =>
    rw [initial_eq] at done
    exact ⟨_,(Except.ok.inj done).symm⟩
  | step done =>
    rw [Step.stepFlat_eq] at done
    obtain ⟨t,_,same⟩ := map_eq_ok.mp done
    exact ⟨t,same.symm⟩

theorem faithful_flat (t : Tree) : t.flat.Faithful where
  order := by rw [Tree.tree_flat]; exact Forest.map_data_layout t.forest 0
  layout := by rw [Tree.tree_flat]; rfl
  nodes := by rw [Tree.tree_flat,Tree.nodes_flat]
  subtree := by
    intro k place
    obtain ⟨n,node,small,walked⟩ := t.walk_flat place
    obtain ⟨more,enough⟩ := Nat.le.dest small
    refine ⟨n,node,?_,walked⟩
    rw [FlatTree.subtree,Layout.subtree,←walked more,enough]
    rfl
  again := by
    intro used
    rw [write_eq,Tree.root?_flat]
    rfl
  digest := by rw [Tree.root?_flat,Tree.fingerprint_flat]
  text := by rw [Tree.tree_flat,Tree.render_flat]

-- Stored trees are equal when they have the same nodes, and then they have one digest.
theorem made_faithful (made : Made x) (other : Made y) : x.Faithful ∧
    ((x == y) = true ↔ x.root? = y.root?) ∧ ((x == y) = true → fingerprint x = fingerprint y) := by
  obtain ⟨t,rfl⟩ := made.exists_flat
  obtain ⟨u,rfl⟩ := other.exists_flat
  rw [Tree.flat_beq,Tree.root?_flat,Tree.root?_flat,Tree.fingerprint_flat,Tree.fingerprint_flat]
  exact ⟨faithful_flat t,Iff.rfl,fun same => by rw [same]⟩

def still : Automaton := .ofEdges 3 (.ofList [0,1,2]) ∅ 1 [⟨0,1,0⟩,⟨1,1,1⟩,⟨2,1,2⟩] (by decide +kernel)

-- The first kid of the root has all its states below it, on two levels.
def heaped : Node :=
  ⟨⟨0,.ofList [0,1,2],false⟩,.cons ⟨1,.ofList [0],false⟩ (.cons ⟨2,.ofList [0],false⟩ .nil .nil)
    (.cons ⟨3,.ofList [1],false⟩ .nil .nil)⟩

-- The kid of 1 gives way, and 3 moves to its slot.
def settled : FlatTree :=
  ⟨[⟨⟨0,.ofList [0,1,2],false⟩,[1,2]⟩,⟨⟨1,.ofList [0],true⟩,[]⟩,⟨⟨3,.ofList [1],false⟩,[]⟩],.ofList [0,1,3]⟩

-- `settled` comes of a step that cuts a slot off and uses it again.
theorem made_faithful_settled : Method.fused.stepFlat still 1 (Tree.ofRoot heaped).flat = .ok settled ∧
    settled.Faithful ∧ (settled == ⟨settled.slots,∅⟩) = true ∧
    fingerprint settled = fingerprint (FlatTree.mk settled.slots ∅) :=
  have ran : Method.fused.stepFlat still 1 (Tree.ofRoot heaped).flat = .ok settled := by decide +kernel
  have again : write settled.root? ∅ = .ok ⟨settled.slots,∅⟩ := by decide +kernel
  have whole := made_faithful (.step ran) (.write again)
  ⟨ran,whole.1,by decide +kernel,whole.2.2 (by decide +kernel)⟩

end FlatTree
end BuchiToRabin
