import Mathlib.Data.List.DropRight
import BuchiToRabin.Proofs.Determinization.Arrows
import BuchiToRabin.Proofs.Determinization.Path
import BuchiToRabin.Proofs.Tree.Text
namespace BuchiToRabin.Determinization
open Text

-- A blank behind a comma stands neither where there are no commas nor where there are no blanks.
theorem not_infix_append {front back : List Char} (commas : ',' ∉ front) (blanks : ' ' ∉ back) :
    ¬ [',',' '] <:+: front ++ back := by
  intro inside
  obtain ⟨before,behind,text⟩ := inside
  rw [List.append_assoc] at text
  rcases List.append_eq_append_iff.mp text with ⟨rest,rfl,tail⟩ | ⟨rest,rfl,tail⟩
  · cases rest with
    | nil =>
      rw [List.nil_append] at tail
      exact blanks (tail ▸ by simp)
    | cons c rest =>
      cases (List.cons.inj tail).1
      exact commas (by simp)
  · exact blanks (tail ▸ by simp)

theorem rtakeWhile_behind {p : α → Bool} {y : α} {ys : List α} (other : p y = false) (good : ∀ z ∈ ys, p z = true)
    (xs : List α) : (xs ++ y :: ys).rtakeWhile p = ys := by
  have back : ∀ z ∈ ys.reverse, p z = true := fun z listed => good z (List.mem_reverse.mp listed)
  rw [List.rtakeWhile,List.reverse_append,List.reverse_cons,List.append_assoc,List.takeWhile_append_of_pos back,
    List.singleton_append,List.takeWhile_cons_of_neg (by simp [other]),List.append_nil,List.reverse_reverse]

variable {A B : Automaton} {s s' : Settings} {d d' : Determinization} {e f : Arrow} {style : DotStyle} {i j a : Nat}

-- In front of every label.
def caption : List Char := ['l','a','b','e','l','=','"']

namespace Arrow

def ends (e : Arrow) : List Char :=
  e.source.repr.toList ++ ' ' :: '-' :: '>' :: ' ' :: (e.target.repr.toList ++ ' ' :: '[' :: caption)

def list (e : Arrow) : List Char := [','].intercalate (e.symbols.map (·.repr.toList)) ++ ['"',']',';']

theorem toList_render (e : Arrow) : e.render.toList = e.ends ++ e.list := by
  simp [render,ends,caption,list,-Nat.toList_repr,Function.comp_def]

theorem render_inj (same : e.render.toList = f.render.toList) : e = f := by
  rw [toList_render,toList_render] at same
  simp only [ends,list,List.append_assoc,List.cons_append] at same
  obtain ⟨source,rest⟩ := repr_append_inj (stops_cons (by decide)) (stops_cons (by decide)) same
  simp only [List.cons.injEq,true_and] at rest
  obtain ⟨target,rest⟩ := repr_append_inj (stops_cons (by decide)) (stops_cons (by decide)) rest
  have listed := List.append_cancel_left (List.cons.inj (List.cons.inj rest).2).2
  obtain ⟨symbols,-⟩ := joined_numerals_inj (by decide) (by decide) (by decide) listed
  exact (mk.injEq ..).mpr ⟨source,target,symbols⟩

theorem not_mem_ends {c : Char} (other : c.isDigit = false) (outside : c ∉ [' ','-','>','['] ++ caption) (e : Arrow) :
    c ∉ e.ends := by
  have source := not_mem_repr other e.source
  have target := not_mem_repr other e.target
  simp only [ends,List.mem_append,List.mem_cons,List.not_mem_nil,or_false,not_or] at outside ⊢
  obtain ⟨⟨blank,dash,tip,opening⟩,label⟩ := outside
  exact ⟨source,blank,dash,tip,blank,target,blank,opening,label⟩

theorem not_mem_list {c : Char} (other : c.isDigit = false) (outside : c ∉ [',','"',']',';']) (e : Arrow) :
    c ∉ e.list := by
  rw [List.mem_cons,not_or] at outside
  obtain ⟨comma,closing⟩ := outside
  have listed : c ∉ [','].intercalate (e.symbols.map (·.repr.toList)) :=
    not_mem_joined_numerals other (List.mem_singleton.not.mpr comma) e.symbols
  rw [list,List.mem_append,not_or]
  exact ⟨listed,closing⟩

theorem newline_not_mem_render (e : Arrow) : '\n' ∉ e.render.toList := by
  rw [toList_render,List.mem_append,not_or]
  exact ⟨not_mem_ends (by decide) (by decide) e,not_mem_list (by decide) (by decide) e⟩

theorem not_infix_render (e : Arrow) : ¬ [',',' '] <:+: e.render.toList := by
  rw [toList_render]
  exact not_infix_append (not_mem_ends (by decide) (by decide) e) (not_mem_list (by decide) (by decide) e)

end Arrow

namespace Circle

-- The label closes the text of a state, behind its shape.
def foot (c : Circle) : List Char := ',' :: ' ' :: (caption ++ c.label.toList ++ ['"',']',';'])

theorem toList_render (c : Circle) : ∃ front, c.render.toList = front ++ c.foot :=
  ⟨c.id.repr.toList ++ " [shape=".toList ++ c.shape.toList,by simp [render,foot,caption]⟩

theorem infix_foot (c : Circle) : [',',' '] <:+: c.foot := ⟨[],_,rfl⟩

-- A shape may have line ends; a label has none.
theorem newline_not_mem_foot (style : DotStyle) (entry : Nat × Tree) : '\n' ∉ (circle style entry).foot := by
  have label : '\n' ∉ (circle style entry).label.toList := by
    show '\n' ∉ (if style.showTrees then entry.2.render else entry.1.repr).toList
    split
    · exact entry.2.newline_not_mem_render
    · exact not_mem_repr (by decide) entry.1
  simp [foot,caption,label]

end Circle

-- The lines behind the last one in which a blank follows a comma, without the closing one. Such a blank is in
-- front of every label of a state, whatever the shape.
def arrowLines (text : String) : List (List Char) :=
  (lines '\n' text.toList).dropLast.rtakeWhile fun line => ¬ [',',' '] <:+: line

theorem arrowLines_eq {text : String} {above foot closing : List Char} {drawn : List (List Char)}
    (split : text.toList = above ++ foot ++ '\n' :: (drawn ++ [closing]).flatMap (· ++ ['\n']))
    (label : '\n' ∉ foot ∧ [',',' '] <:+: foot) (last : '\n' ∉ closing)
    (plain : ∀ line ∈ drawn, '\n' ∉ line ∧ ¬ [',',' '] <:+: line) : arrowLines text = drawn := by
  have within : ∀ line ∈ drawn ++ [closing], '\n' ∉ line := by
    intro line listed
    rcases List.mem_append.mp listed with early | late
    · exact (plain line early).1
    · rw [List.mem_singleton.mp late]
      exact last
  have whole : ∀ c ∈ foot, (c == '\n') = false := fun c inside => beq_false_of_ne fun same => label.1 (same ▸ inside)
  obtain ⟨pieces,piece,cut⟩ := splitOnP_append whole above
  rw [arrowLines,split,lines_append,cut,lines_flatMap within,←List.append_assoc,List.dropLast_concat,
    List.append_assoc,List.singleton_append]
  apply rtakeWhile_behind
  · exact decide_eq_false (not_not.mpr (List.infix_append_of_infix_right label.2))
  · exact fun line listed => decide_eq_true (plain line listed).2

theorem exists_heading (d : Determinization) (style : DotStyle) : ∃ heading : List String, heading.length = 5 ∧
    d.dotLines style = heading ++ (d.store.entries.map (circle style)).map Circle.render ++
      d.arrows.map Arrow.render ++ ["\x7d"] :=
  ⟨_,rfl,by rw [List.map_map]; rfl⟩

theorem arrowLines_dot (some : d.store.entries ≠ []) (style : DotStyle) :
    arrowLines (d.dot style) = d.arrows.map (·.render.toList) := by
  rcases List.eq_nil_or_concat d.store.entries with none | ⟨before,entry,last⟩
  · exact absurd none some
  obtain ⟨heading,-,lines⟩ := d.exists_heading style
  obtain ⟨front,closed⟩ := (circle style entry).toList_render
  have drawn : (d.dot style).toList = ((heading ++ (before.map (circle style)).map Circle.render).flatMap
      (·.toList ++ ['\n']) ++ front) ++ (circle style entry).foot ++
        '\n' :: (d.arrows.map (·.render.toList) ++ [['}']]).flatMap (· ++ ['\n']) := by
    rw [dot,lines,last]
    simp [String.toList_join,closed,List.flatMap_map]
  refine arrowLines_eq drawn ⟨Circle.newline_not_mem_foot style entry,Circle.infix_foot _⟩ (by decide) ?_
  intro line listed
  obtain ⟨e,-,rfl⟩ := List.mem_map.mp listed
  exact ⟨e.newline_not_mem_render,e.not_infix_render⟩

theorem map_fst_entries (d : Determinization) : d.store.entries.map (·.1) = d.states := by
  rw [Store.entries,List.map_map,states,size,Store.count,List.range_eq_range',←Array.length_toList,
    ←List.zipIdx_map_snd,List.map_map]
  rfl

-- A state for each line and an arrow for each entry of the table, whatever the shapes and labels.
structure Carries (A : Automaton) (d : Determinization) (style : DotStyle) : Prop where
  text : ∃ heading circles, heading.length = 5 ∧
    d.dot style = String.join
      ((heading ++ circles.map Circle.render ++ d.arrows.map Arrow.render ++ ["\x7d"]).map (· ++ "\n")) ∧
    List.Forall₂ (fun i c => ∃ t, d.tree i = .ok t ∧ c = circle style (i,t)) d.states circles
  order : d.arrows.Pairwise Arrow.Precedes
  symbols : ∀ e ∈ d.arrows, e.symbols ≠ [] ∧ e.symbols.Pairwise (· < ·)
  leads : ∀ e ∈ d.arrows, e.source ∈ d.states ∧ e.target ∈ d.states ∧
    ∀ a ∈ e.symbols, a ∈ A.symbols ∧ d.successor e.source a = .ok e.target
  once : ∀ i ∈ d.states, ∀ a ∈ A.symbols, ∃ e,
    d.arrows.filter (fun e => e.source = i ∧ a ∈ e.symbols) = [e] ∧ d.successor i a = .ok e.target
  read : arrowLines (d.dot style) = d.arrows.map (·.render.toList)

theorem lengths_of_made (made : ofAutomaton A s = .ok d) :
    d.alphabetSize = A.alphabetSize ∧ ∀ row ∈ d.rows, row.length = d.alphabetSize := by
  obtain ⟨_,_,_,_,chart,complete⟩ := ofAutomaton_ok made
  rw [chart.alphabet]
  exact ⟨rfl,fun row listed => ((chart.exact_of_complete complete).rows row listed).1⟩

theorem Exact.successor_states (exact : Exact A d) (goes : d.successor i a = .ok j) : i ∈ d.states ∧ j ∈ d.states := by
  obtain ⟨positive,-,row,found,entry⟩ := successor_eq_ok.mp goes
  obtain ⟨inside,-⟩ := Array.getElem?_eq_some_iff.mp found
  rw [exact.rows_size] at inside
  have target := (exact.rows row (Array.mem_of_getElem? found)).2 j (List.mem_of_getElem? entry)
  exact ⟨exact.mem_states.mpr ((exact.numbers i).mpr ⟨positive,by omega⟩),
    exact.mem_states.mpr ((exact.numbers j).mpr target)⟩

theorem carries_of_made (made : ofAutomaton A s = .ok d) (style : DotStyle) : Carries A d style := by
  obtain ⟨exact,-⟩ := exact_of_made made
  obtain ⟨alphabet,lengths⟩ := lengths_of_made made
  refine ⟨?_,arrows_ascending d,fun e => symbols_ascending,?_,?_,?_⟩
  · obtain ⟨heading,five,lines⟩ := d.exists_heading style
    refine ⟨heading,_,five,by rw [dot,lines],?_⟩
    rw [←map_fst_entries,List.forall₂_map_left_iff,List.forall₂_map_right_iff,List.forall₂_same]
    exact fun entry listed => ⟨entry.2,tree_eq_ok.mpr (Store.mem_entries.mp listed),rfl⟩
  · intro e drawn
    obtain ⟨a,listed⟩ := List.exists_mem_of_ne_nil _ (symbols_ascending drawn).1
    have ends := exact.successor_states ((mem_symbols_iff lengths drawn).mp listed)
    refine ⟨ends.1,ends.2,fun b listed => ?_⟩
    have goes := (mem_symbols_iff lengths drawn).mp listed
    have symbol := (successor_eq_ok.mp goes).2.1
    rw [alphabet] at symbol
    exact ⟨Automaton.mem_symbols.mpr symbol,goes⟩
  · intro i state a symbol
    obtain ⟨t,held⟩ := exact.mem_states.mp state
    obtain ⟨j,goes,-⟩ := exact.successor held symbol
    obtain ⟨e,single,rfl⟩ := filter_arrows lengths goes
    exact ⟨e,single,goes⟩
  · obtain ⟨i,t,-,held,-⟩ := exact.reads [] nofun
    exact arrowLines_dot (List.ne_nil_of_mem (Store.mem_entries.mpr (tree_eq_ok.mp held))) style

-- Without a successor there is an error, and the alphabet is all that the error depends on.
theorem successor_congr (alphabet : d.alphabetSize = d'.alphabetSize)
    (same : ∀ j, d.successor i a = .ok j ↔ d'.successor i a = .ok j) : d.successor i a = d'.successor i a := by
  cases left : d.successor i a with
  | ok j => exact ((same j).mp left).symm
  | error failure =>
    cases right : d'.successor i a with
    | ok j => rw [(same j).mpr right] at left; cases left
    | error failure' =>
      unfold successor at left right
      rw [alphabet] at left
      grind

theorem alphabetSize_le (made : ofAutomaton A s = .ok d)
    (keeps : ∀ i a j, d.successor i a = .ok j → d'.successor i a = .ok j) : d.alphabetSize ≤ d'.alphabetSize := by
  obtain ⟨exact,-⟩ := exact_of_made made
  by_cases none : d.alphabetSize = 0
  · rw [none]
    exact Nat.zero_le _
  · have symbol : d.alphabetSize ∈ A.symbols := by
      rw [Automaton.mem_symbols,←(lengths_of_made made).1]
      omega
    obtain ⟨i,t,-,held,-⟩ := exact.reads [] nofun
    obtain ⟨j,goes,-⟩ := exact.successor held symbol
    exact (successor_eq_ok.mp (keeps i _ j goes)).2.1.2

theorem successor_of_arrows (made : ofAutomaton A s = .ok d) (made' : ofAutomaton B s' = .ok d')
    (same : d.arrows = d'.arrows) : d.successor = d'.successor := by
  have agree : ∀ i a j, d.successor i a = .ok j ↔ d'.successor i a = .ok j := by
    intro i a j
    rw [successor_iff_arrow (lengths_of_made made).2,successor_iff_arrow (lengths_of_made made').2,same]
  have alphabet := Nat.le_antisymm (alphabetSize_le made fun i a j => (agree i a j).mp)
    (alphabetSize_le made' fun i a j => (agree i a j).mpr)
  funext i a
  exact successor_congr alphabet (agree i a)

-- The text holds the table of successors, each entry once, and the lines of the arrows are enough to tell it.
theorem dot_carries (A : Automaton) (s : Settings) (d : Determinization) (made : ofAutomaton A s = .ok d) :
    (∀ style, Carries A d style) ∧ ∀ B s' d' style style', ofAutomaton B s' = .ok d' →
      arrowLines (d.dot style) = arrowLines (d'.dot style') → d.successor = d'.successor := by
  refine ⟨carries_of_made made,?_⟩
  intro B s' d' style style' made' same
  rw [(carries_of_made made style).read,(carries_of_made made' style').read] at same
  apply successor_of_arrows made made'
  exact List.map_injective_iff.mpr (fun e f => Arrow.render_inj) same

-- Two symbols keep the only state, the third leaves none.
def blink : Automaton := .ofEdges 1 (.ofList [0]) (.ofList [0]) 3 [⟨0,1,0⟩,⟨0,2,0⟩] (by decide +kernel)

-- The shape of the dead state has the text of an arrow in it.
def forged : DotStyle := {deadShape := "box];\n1 -> 2 [label=\"1\"];\n[shape=box",showTrees := true}

theorem dot_carries_blink : ∃ d, ofAutomaton blink tight = .ok d ∧ Carries blink d forged ∧
    d.arrows = [⟨1,1,[1,2]⟩,⟨1,2,[3]⟩,⟨2,2,[1,2,3]⟩] := by
  have shown : (ofAutomaton blink tight).toOption.map (·.arrows) = some [⟨1,1,[1,2]⟩,⟨1,2,[3]⟩,⟨2,2,[1,2,3]⟩] := by
    decide +kernel
  obtain ⟨d,made,drawn⟩ := exists_made shown
  exact ⟨d,made,(dot_carries blink tight d made).1 forged,drawn⟩

end BuchiToRabin.Determinization
