import BuchiToRabin.Proofs.Step.Flat
import BuchiToRabin.Proofs.Text.Joined
namespace BuchiToRabin
open Text

namespace NatSet

theorem toList_render (s : NatSet) :
    s.render.toList = '{' :: ([',',' '].intercalate (s.elements.map (·.repr.toList)) ++ ['}']) := by
  simp [render,Function.comp_def]

-- A set in front of something else can be told from it.
theorem render_append_inj {s t : NatSet} {r u : List Char} (same : s.render.toList ++ r = t.render.toList ++ u) :
    s = t ∧ r = u := by
  rw [toList_render,toList_render] at same
  simp only [List.cons_append,List.append_assoc,List.cons.injEq,true_and,List.nil_append] at same
  obtain ⟨elements,rest⟩ := joined_numerals_inj (by decide) (by decide) (by decide) same
  exact ⟨by rw [←ofList_elements s,elements,ofList_elements],rest⟩

theorem newline_not_mem_render (s : NatSet) : '\n' ∉ s.render.toList := by
  have elements : '\n' ∉ [',',' '].intercalate (s.elements.map (·.repr.toList)) :=
    not_mem_joined_numerals (by decide) (by decide) s.elements
  simp [toList_render,-Nat.toList_repr,elements]

end NatSet

namespace Vertex

def flag (v : Vertex) : List Char := (if v.marked then "true" else "false").toList

theorem toList_render (v : Vertex) (kids : List String) : (v.render kids).toList =
    '{' :: (v.name.number.repr.toList ++ ',' :: (v.label.render.toList ++ ',' :: (v.flag ++ ',' :: '{' ::
      ([','].intercalate (kids.map String.toList) ++ ['}','}'])))) := by
  simp [render,flag]

theorem flag_append_inj {v w : Vertex} {r s : List Char} (same : v.flag ++ r = w.flag ++ s) :
    v.marked = w.marked ∧ r = s := by
  obtain ⟨_,_,marked⟩ := v
  obtain ⟨_,_,marked'⟩ := w
  cases marked <;> cases marked' <;> simp [flag] at same <;> exact ⟨rfl,same⟩

theorem render_append_inj {v w : Vertex} {kids kids' : List String} {r s : List Char}
    (same : (v.render kids).toList ++ r = (w.render kids').toList ++ s) : v = w ∧
      [','].intercalate (kids.map String.toList) ++ '}' :: '}' :: r =
        [','].intercalate (kids'.map String.toList) ++ '}' :: '}' :: s := by
  rw [toList_render,toList_render] at same
  simp only [List.cons_append,List.append_assoc,List.cons.injEq,true_and,List.nil_append] at same
  obtain ⟨number,labelled⟩ := repr_append_inj (stops_cons (by decide)) (stops_cons (by decide)) same
  obtain ⟨label,flagged⟩ := NatSet.render_append_inj (List.cons.inj labelled).2
  obtain ⟨marked,kids⟩ := flag_append_inj (List.cons.inj flagged).2
  have fields := And.intro (Nat.succ.inj number) (And.intro label marked)
  exact ⟨(mk.injEq ..).mpr fields,(List.cons.inj (List.cons.inj kids).2).2⟩

theorem newline_not_mem_render (v : Vertex) {kids : List String} (clean : ∀ kid ∈ kids, '\n' ∉ kid.toList) :
    '\n' ∉ (v.render kids).toList := by
  have number : '\n' ∉ v.name.number.repr.toList := not_mem_repr (by decide) _
  have flag : '\n' ∉ v.flag := by unfold flag; cases v.marked <;> decide
  have inside : '\n' ∉ [','].intercalate (kids.map String.toList) :=
    not_mem_intercalate (by decide) (List.forall_mem_map.mpr clean)
  simp [toList_render,-Nat.toList_repr,number,flag,inside,v.label.newline_not_mem_render]

end Vertex

namespace Forest

def texts (f : Forest Vertex) : List (List Char) := (f.fold Vertex.render).map String.toList

theorem texts_cons (v : Vertex) (kids right : Forest Vertex) :
    (Forest.cons v kids right).texts = (v.render (kids.fold Vertex.render)).toList :: right.texts := rfl

-- The kids can be told from their texts with the closing brace. Behind a comma the first of them is like the
-- others, so one law is enough for the induction.
theorem joined_of_trail {f g : Forest Vertex} {r s : List Char}
    (told : trail [','] f.texts ++ '}' :: r = trail [','] g.texts ++ '}' :: s → f = g ∧ r = s)
    (same : [','].intercalate f.texts ++ '}' :: r = [','].intercalate g.texts ++ '}' :: s) : f = g ∧ r = s := by
  cases f with
  | nil =>
    cases g with
    | nil => exact ⟨rfl,(List.cons.inj same).2⟩
    | cons w deeper right =>
      rw [texts_cons,intercalate_cons,Vertex.toList_render] at same
      cases (List.cons.inj same).1
  | cons v kids right =>
    rw [texts_cons,intercalate_cons] at same
    cases g with
    | nil =>
      rw [Vertex.toList_render] at same
      cases (List.cons.inj same).1
    | cons w deeper right' =>
      rw [texts_cons,intercalate_cons] at same
      refine told ?_
      rw [texts_cons,texts_cons]
      exact congrArg (',' :: ·) same

theorem trail_texts_inj (f : Forest Vertex) : ∀ {g : Forest Vertex} {r s : List Char},
    trail [','] f.texts ++ '}' :: r = trail [','] g.texts ++ '}' :: s → f = g ∧ r = s := by
  induction f with
  | nil =>
    intro g r s same
    cases g with
    | nil => exact ⟨rfl,(List.cons.inj same).2⟩
    | cons w deeper right => cases (List.cons.inj same).1
  | cons v kids right below ih =>
    intro g r s same
    cases g with
    | nil => cases (List.cons.inj same).1
    | cons w deeper right' =>
      simp only [trail,texts_cons,List.flatMap_cons,List.append_assoc,List.append_cancel_left_eq] at same
      obtain ⟨top,inside⟩ := Vertex.render_append_inj same
      obtain ⟨kidsSame,behind⟩ := joined_of_trail below inside
      obtain ⟨rightSame,rest⟩ := ih (List.cons.inj behind).2
      exact ⟨by rw [top,kidsSame,rightSame],rest⟩

theorem newline_not_mem_fold (f : Forest Vertex) : ∀ kid ∈ f.fold Vertex.render, '\n' ∉ kid.toList := by
  induction f with
  | nil => nofun
  | cons v kids right below ih => exact List.forall_mem_cons.mpr ⟨v.newline_not_mem_render below,ih⟩

end Forest

theorem Node.render_append_inj {m n : Node} {r s : List Char}
    (same : m.render.toList ++ r = n.render.toList ++ s) : m = n ∧ r = s := by
  obtain ⟨top,below⟩ := Vertex.render_append_inj same
  obtain ⟨kids,rest⟩ := Forest.joined_of_trail (Forest.trail_texts_inj m.kids) below
  exact ⟨(mk.injEq ..).mpr ⟨top,kids⟩,(List.cons.inj rest).2⟩

namespace Tree

-- Without a root there is no numeral behind the first brace.
theorem node_render_ne (r : Node) : r.render ≠ "\x7b\x7d" := by
  intro same
  have text := congrArg String.toList same
  rw [Node.render,Vertex.toList_render] at text
  exact repr_ne_other (by decide) (List.cons.inj text).2.symm

theorem render_inj {t u : Tree} : t.render = u.render ↔ t.root = u.root := by
  constructor
  · intro same
    obtain ⟨root,used⟩ := t
    obtain ⟨root',used'⟩ := u
    cases root with
    | none =>
      cases root' with
      | none => rfl
      | some r => exact absurd same.symm (node_render_ne r)
    | some r =>
      cases root' with
      | none => exact absurd same (node_render_ne r)
      | some r' =>
        have text := congrArg (String.toList · ++ []) same
        exact congrArg some (Node.render_append_inj text).1
  · intro same
    unfold render
    rw [same]

theorem newline_not_mem_render (t : Tree) : '\n' ∉ t.render.toList := by
  obtain ⟨root,used⟩ := t
  cases root with
  | none =>
    show '\n' ∉ "\x7b\x7d".toList
    decide
  | some r => exact r.top.newline_not_mem_render r.kids.newline_not_mem_fold

end Tree

namespace FlatTree

variable {x y : FlatTree}

-- The text of a stored tree tells the tree: two texts are the same only for the same nodes, in the same order
-- and with the same names, labels and marks. The names in use are not part of it.
theorem made_render_inj (made : Made x) (other : Made y) :
    (x.render = y.render ↔ (x == y) = true) ∧ (x.render = y.render ↔ x.root? = y.root?) := by
  obtain ⟨t,rfl⟩ := made.exists_flat
  obtain ⟨u,rfl⟩ := other.exists_flat
  rw [Tree.render_flat,Tree.render_flat,Tree.render_inj,Tree.flat_beq,Tree.root?_flat,Tree.root?_flat]
  exact ⟨Iff.rfl,Iff.rfl⟩

-- The nodes of `settled`, with 3 below 1.
def chained : Node :=
  ⟨⟨0,.ofList [0,1,2],false⟩,.cons ⟨1,.ofList [0],true⟩ (.cons ⟨3,.ofList [1],false⟩ .nil .nil) .nil⟩

-- Other names in use do not change the text of `settled`; a brace moves when 3 does.
theorem made_render_inj_settled : settled.render = (FlatTree.mk settled.slots ∅).render ∧
    settled.render ≠ (Tree.ofRoot chained).flat.render :=
  have ran : Method.fused.stepFlat still 1 (Tree.ofRoot heaped).flat = .ok settled := by decide +kernel
  have again : write settled.root? ∅ = .ok ⟨settled.slots,∅⟩ := by decide +kernel
  have hung : ofRoot chained = .ok (Tree.ofRoot chained).flat := by decide +kernel
  have apart : settled.root? ≠ (Tree.ofRoot chained).flat.root? := by decide +kernel
  ⟨(made_render_inj (.step ran) (.write again)).1.mpr (by decide +kernel),
    fun same => apart ((made_render_inj (.step ran) (.ofRoot hung)).2.mp same)⟩

end FlatTree
end BuchiToRabin
