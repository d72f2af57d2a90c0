import BuchiToRabin.Proofs.Automaton.Reader
namespace BuchiToRabin.Automaton.Reader
open Text

-- Faults of the end of the input, and not of a line.
def Fault.isCut : Fault → Bool
  | .noHeader | .headerCut | .edgesCut _ => true
  | .expected .. | .outside .. | .fewFields _ | .oversized => false

-- These lines have been read, one after the other, and there is more to read.
inductive Reaches : List (List Char) → Stage → Prop
  | start : Reaches [] .preamble
  | step : Reaches ls s → s.feed line = .ok next → next.isDone = false → Reaches (ls ++ [line]) next

-- Reading gets to line `L`, and this is what the line makes of the stage before it.
def Gives (given : List (Option (List Char))) (L : Nat) (result : Except Fault Stage) : Prop :=
  ∃ ls line s, given.take L = ls.map some ++ [some line] ∧ ls.length + 1 = L ∧ Reaches ls s ∧ s.feed line = result

-- The answer at the last line that is read.
def settle (L : Nat) : Except Fault Stage → Except Error Automaton
  | .ok s => s.finish L
  | .error fault => .error (fault.error L)

def Settles : Except Fault Stage → Prop
  | .ok s => s.isDone = true
  | .error _ => True

-- An automaton, or the lack of room for its table of edges.
def Made (answer : Except Error Automaton) : Prop :=
  (∃ A, answer = .ok A) ∨ ∃ p, answer = .error (.rejected (.transitions (.panic p)))

-- How reading ends, and the answer: a line completes the automaton, is faulty, names too many edges or is no
-- text, or there are no more lines.
inductive Ending (given : List (Option (List Char))) : Except Error Automaton → Prop
  | complete : Gives given L (.ok next) → next.isDone = true → Made answer → Ending given answer
  | faulty : Gives given L (.error fault) → fault.inLine = true → Ending given (.error (.malformed L fault))
  | oversized : Gives given L (.error .oversized) → Ending given (.error (.panic .capacity))
  | notText : given = ls.map some ++ none :: rest → Reaches ls s → Ending given (.error .notText)
  | enough : given = ls.map some → Reaches ls s → Made answer → Ending given answer
  | cut : given = ls.map some → Reaches ls s → fault.isCut = true →
      Ending given (.error (.malformed ls.length fault))

-- What is made of all lines, or a fault of the end of the input after `count` of them.
def OnlyCut (count : Nat) (answer : Except Error Automaton) : Prop :=
  Made answer ∨ ∃ fault, fault.isCut = true ∧ answer = .error (.malformed count fault)

-- The lines as they are read, `none` for one that is no text. A carriage return before its end is not part of
-- a line. One at the end of the input is blank at most and left out too.
def linesRead (bytes : List UInt8) : List (Option (List Char)) :=
  (lines 10 bytes).map fun line => (decode line).map chomp

-- The first lines by themselves, each with its end.
def heading (count : Nat) (bytes : List UInt8) : List UInt8 := ((lines 10 bytes).take count).flatMap (· ++ [10])

-- The answer stays the same with the first lines, whatever follows them, be it text or not.
structure Fixes (bytes : List UInt8) (count : Nat) : Prop where
  same (other : List UInt8) :
    (linesRead other).take count = (linesRead bytes).take count → readBytes other = readBytes bytes
  ended (rest : List UInt8) : readBytes (heading count bytes ++ rest) = readBytes bytes

-- Which part of the input the answer comes from. A line that completes the automaton, is faulty or names too many
-- edges fixes it. Before such a line there is no fault but that of an early end. Nothing that is no text is met
-- after it, and an early end is reported with all lines counted.
structure DecidedByPrefix (bytes : List UInt8) : Prop where
  complete (L : Nat) (next : Stage) : Gives (linesRead bytes) L (.ok next) → next.isDone = true →
    Fixes bytes L ∧ Made (readBytes bytes)
  fails (L : Nat) (fault : Fault) : fault ≠ .oversized → (Gives (linesRead bytes) L (.error fault) ↔
    readBytes bytes = .error (.malformed L fault) ∧ fault.isCut = false)
  faulty (L : Nat) (fault : Fault) : Gives (linesRead bytes) L (.error fault) →
    Fixes bytes L ∧ 2 ≤ L ∧ OnlyCut (L - 1) (readBytes (heading (L - 1) bytes)) ∧
      ∀ other, linesRead other = (linesRead bytes).take (L - 1) → OnlyCut (L - 1) (readBytes other)
  oversized : readBytes bytes = .error (.panic .capacity) ↔ ∃ L, Gives (linesRead bytes) L (.error .oversized)
  notText : readBytes bytes = .error .notText ↔
    ∃ ls rest s, linesRead bytes = ls.map some ++ none :: rest ∧ Reaches ls s
  cut (L : Nat) (fault : Fault) : readBytes bytes = .error (.malformed L fault) → fault.isCut = true →
    (linesRead bytes).length = L ∧ ∃ ls s, linesRead bytes = ls.map some ∧ Reaches ls s
  short (ls : List (List Char)) (s : Stage) : linesRead bytes = ls.map some → Reaches ls s →
    readBytes bytes = s.finish ls.length ∧ OnlyCut ls.length (readBytes bytes)

variable {s next : Stage} {line : List Char} {ls : List (List Char)} {given : List (Option (List Char))}
  {bytes : List UInt8} {result : Except Fault Stage} {n k L : Nat} {fault : Fault} {what : Quantity} {token : List Char}

theorem Fault.isCut_of_inLine (inLine : fault.inLine = true) : fault.isCut = false := by
  cases fault <;> first | rfl | cases inLine

theorem Made.rejected {e : Error} (made : Made (.error e)) : ∃ p, e = .rejected (.transitions (.panic p)) := by
  rcases made with ⟨A,done⟩ | ⟨p,failed⟩
  · cases done
  · exact ⟨p,Except.error.inj failed⟩

theorem feed_chomp (s : Stage) (line : List Char) : s.feed (chomp line) = s.feed line := by
  unfold Stage.feed
  rw [trim_chomp]

theorem Reaches.sound (reached : Reaches ls s) : s.Sound := by
  induction reached with
  | start => exact trivial
  | step before fed _ ih => exact sound_feed ih fed

-- What is left to read is read from the stage reached, with the lines before it counted.
theorem Reaches.answer (reached : Reaches ls s) (rest : List (Option (List Char))) :
    readLines (ls.map some ++ rest) = readFrom s ls.length rest := by
  induction reached generalizing rest with
  | start => rfl
  | step before fed more ih =>
    rw [List.map_append,List.append_assoc,ih,List.length_append]
    show readFrom _ _ (some _ :: rest) = _
    rw [readFrom,fed]
    dsimp only
    rw [more]
    rfl

theorem Gives.answer (gives : Gives given L result) (last : Settles result) :
    readLines given = settle L result := by
  obtain ⟨ls,line,s,first,rfl,reached,fed⟩ := gives
  have split : given = ls.map some ++ some line :: given.drop (ls.length + 1) := by
    rw [List.append_cons,←first,List.take_append_drop]
  rw [split,reached.answer,readFrom,fed]
  cases result with
  | error fault => rfl
  | ok next =>
    have done : next.isDone = true := last
    dsimp only
    rw [done]
    rfl

theorem Gives.sound (gives : Gives given L (.ok next)) : next.Sound := by
  obtain ⟨ls,line,s,-,-,reached,fed⟩ := gives
  exact sound_feed reached.sound fed

theorem Gives.length_take (gives : Gives given L result) : (given.take L).length = L := by
  obtain ⟨ls,line,s,first,rfl,-⟩ := gives
  rw [first,List.length_append,List.length_map]
  rfl

-- What is read is in range, so the automaton is refused for lack of room only.
theorem assemble_made {read : List Edge} {start ends : NatSet} (inside : ∀ e ∈ read, edgeError? n k e = none)
    (start_lt : ∀ q ∈ start, q < n) (ends_lt : ∀ q ∈ ends, q < n) : Made (assemble n k read start ends) := by
  have answers := answers_assemble inside start_lt ends_lt fun _ => Iff.rfl
  by_cases roomy : ∀ e ∈ read.reverse, Transitions.Roomy e
  · exact .inl (answers.accepts.mpr ⟨_,rfl,roomy⟩)
  · exact .inr (answers.panics _ rfl (by simpa using roomy))

theorem finish_onlyCut (sound : s.Sound) (count : Nat) : OnlyCut count (s.finish count) := by
  have empty (n : Nat) : ∀ q ∈ (∅ : NatSet), q < n := fun q none => absurd none NatSet.not_mem_empty
  cases s with
  | preamble | stateCount | alphabetSize _ | edgeCount _ _ | edges _ _ _ _ => exact .inr ⟨_,rfl,rfl⟩
  | initial n k read => exact .inl (assemble_made sound (empty n) (empty n))
  | finals n k read start => exact .inl (assemble_made sound.1 sound.2 (empty n))
  | done n k read start ends => exact .inl (assemble_made sound.1 sound.2.1 sound.2.2)

theorem finish_done (sound : s.Sound) (done : s.isDone = true) (count : Nat) : Made (s.finish count) := by
  cases s with
  | done n k read start ends => exact assemble_made sound.1 sound.2.1 sound.2.2
  | _ => cases done

theorem Reaches.answer_all (reached : Reaches ls s) : readLines (ls.map some) = s.finish ls.length := by
  rw [←List.append_nil (ls.map some),reached.answer]
  rfl

-- By induction on the lines not yet read.
theorem ending_from (rest : List (Option (List Char))) :
    ∀ {ls s}, given = ls.map some ++ rest → Reaches ls s → Ending given (readLines given) := by
  induction rest with
  | nil =>
    intro ls s split reached
    rw [List.append_nil] at split
    rcases finish_onlyCut reached.sound ls.length with made | ⟨fault,isCut,failed⟩
    · rw [split,reached.answer_all]
      exact .enough rfl reached made
    · rw [split,reached.answer_all,failed]
      exact .cut rfl reached isCut
  | cons item rest ih =>
    intro ls s split reached
    cases item with
    | none =>
      rw [split,reached.answer]
      exact .notText rfl reached
    | some line =>
      have first : given.take (ls.length + 1) = ls.map some ++ [some line] := by
        rw [split,List.append_cons,List.take_left' (by simp)]
      have gives : Gives given (ls.length + 1) (s.feed line) := ⟨ls,line,s,first,rfl,reached,rfl⟩
      cases fed : s.feed line with
      | error fault =>
        rw [fed] at gives
        rw [gives.answer trivial,settle]
        rcases (feed_fault fed).2 with inLine | ⟨rfl,-⟩
        · rw [Fault.error_inLine inLine]
          exact .faulty gives inLine
        · exact .oversized gives
      | ok next =>
        rw [fed] at gives
        cases done : next.isDone with
        | true =>
          rw [gives.answer done]
          exact .complete gives done (finish_done gives.sound done (ls.length + 1))
        | false =>
          refine ih ?_ (reached.step fed done)
          rw [split,List.map_append,List.append_assoc]
          rfl

theorem ending (given : List (Option (List Char))) : Ending given (readLines given) :=
  ending_from given (by rfl) .start

theorem readFrom_chomp (given : List (Option (List Char))) : ∀ s count,
    readFrom s count (given.map (Option.map chomp)) = readFrom s count given := by
  induction given with
  | nil => exact fun s count => rfl
  | cons item given ih =>
    intro s count
    cases item with
    | none => rfl
    | some line =>
      rw [List.map_cons,Option.map_some,readFrom,readFrom,feed_chomp]
      simp only [ih]

theorem readBytes_eq (bytes : List UInt8) : readBytes bytes = readLines (linesRead bytes) := by
  have chomped : linesRead bytes = ((lines 10 bytes).map decode).map (Option.map chomp) := by
    rw [List.map_map]
    rfl
  rw [chomped,readLines,readFrom_chomp]
  rfl

theorem Gives.settled (gives : Gives (linesRead bytes) L result) (last : Settles result) :
    readBytes bytes = settle L result := by rw [readBytes_eq,gives.answer last]

theorem Reaches.finished (reached : Reaches ls s) (all : linesRead bytes = ls.map some) :
    readBytes bytes = s.finish ls.length := by rw [readBytes_eq,all,reached.answer_all]

theorem ending_readBytes {answer : Except Error Automaton} (read : readBytes bytes = answer) :
    Ending (linesRead bytes) answer := by
  rw [←read,readBytes_eq]
  exact ending (linesRead bytes)

theorem lines_terminated {ls : List (List UInt8)} (within : ∀ line ∈ ls, 10 ∉ line) (rest : List UInt8) :
    lines 10 (ls.flatMap (· ++ [10]) ++ rest) = ls ++ lines 10 rest := by
  induction ls with
  | nil => rfl
  | cons line ls ih =>
    rw [List.flatMap_cons,List.append_assoc,List.append_assoc,List.singleton_append,
      lines_cons (within line List.mem_cons_self),ih fun line listed => within line (List.mem_cons_of_mem _ listed)]
    rfl

theorem linesRead_heading (count : Nat) (bytes rest : List UInt8) :
    linesRead (heading count bytes ++ rest) = (linesRead bytes).take count ++ linesRead rest := by
  have within : ∀ line ∈ (lines 10 bytes).take count, (10 : UInt8) ∉ line :=
    fun line listed => not_mem_of_mem_lines (List.mem_of_mem_take listed)
  rw [linesRead,heading,lines_terminated within,List.map_append,List.map_take]
  rfl

theorem Gives.fixes (gives : Gives (linesRead bytes) L result)
    (last : Settles result) : Fixes bytes L := by
  have same (other : List UInt8) (first : (linesRead other).take L = (linesRead bytes).take L) :
      readBytes other = readBytes bytes := by
    have gives' : Gives (linesRead other) L result := by
      rw [Gives,first]
      exact gives
    rw [gives'.settled last,gives.settled last]
  refine ⟨same,fun rest => same _ ?_⟩
  rw [linesRead_heading,List.take_left' gives.length_take]

theorem Gives.before (gives : Gives given L result) :
    ∃ ls s, given.take (L - 1) = ls.map some ∧ ls.length = L - 1 ∧ Reaches ls s := by
  obtain ⟨ls,line,s,first,rfl,reached,-⟩ := gives
  refine ⟨ls,s,?_,rfl,reached⟩
  have before := congrArg (List.take ls.length) first
  rwa [List.take_take,Nat.min_eq_left (Nat.le_succ _),List.take_left' (List.length_map _)] at before

theorem Gives.two_le (gives : Gives given L (.error fault)) : 2 ≤ L := by
  obtain ⟨ls,line,s,-,rfl,reached,failed⟩ := gives
  cases reached with
  | start => exact absurd rfl (feed_fault failed).1
  | step before _ _ => simp

theorem readBytes_decidedByPrefix (bytes : List UInt8) : DecidedByPrefix bytes where
  complete L next gives done := by
    rw [gives.settled done]
    exact ⟨gives.fixes done,finish_done gives.sound done L⟩
  fails L fault other := by
    constructor
    · intro gives
      have ⟨ls,line,s,_,_,_,failed⟩ := gives
      have inLine := (feed_fault failed).2.resolve_right fun excess => other excess.1
      rw [gives.settled trivial,settle,Fault.error_inLine inLine]
      exact ⟨rfl,Fault.isCut_of_inLine inLine⟩
    · intro found
      obtain ⟨answer,inLine⟩ := found
      cases ending_readBytes answer with
      | faulty gives _ => exact gives
      | cut _ _ isCut => rw [inLine] at isCut; cases isCut
      | complete _ _ made => cases made.rejected.choose_spec
      | enough _ _ made => cases made.rejected.choose_spec
  faulty L fault gives := by
    have alone (other : List UInt8) (only : linesRead other = (linesRead bytes).take (L - 1)) :
        OnlyCut (L - 1) (readBytes other) := by
      obtain ⟨ls,s,before,length,reached⟩ := gives.before
      rw [reached.finished (only.trans before),←length]
      exact finish_onlyCut reached.sound _
    refine ⟨gives.fixes trivial,gives.two_le,alone _ ?_,alone⟩
    rw [←List.append_nil (heading (L - 1) bytes),linesRead_heading]
    exact List.append_nil _
  oversized := by
    constructor
    · intro answer
      cases ending_readBytes answer with
      | oversized gives => exact ⟨_,gives⟩
      | complete _ _ made => cases made.rejected.choose_spec
      | enough _ _ made => cases made.rejected.choose_spec
    · rintro ⟨L,gives⟩
      exact gives.settled trivial
  notText := by
    constructor
    · intro answer
      cases ending_readBytes answer with
      | notText split reached => exact ⟨_,_,_,split,reached⟩
      | complete _ _ made => cases made.rejected.choose_spec
      | enough _ _ made => cases made.rejected.choose_spec
    · intro found
      obtain ⟨ls,rest,s,split,reached⟩ := found
      rw [readBytes_eq,split,reached.answer]
      rfl
  cut L fault answer isCut := by
    cases ending_readBytes answer with
    | faulty _ inLine => rw [Fault.isCut_of_inLine inLine] at isCut; cases isCut
    | cut all reached _ => exact ⟨by rw [all,List.length_map],_,_,all,reached⟩
    | complete _ _ made => cases made.rejected.choose_spec
    | enough _ _ made => cases made.rejected.choose_spec
  short ls s all reached := by
    have answer := reached.finished all
    exact ⟨answer,answer ▸ finish_onlyCut reached.sound _⟩

-- One state and one symbol, no edges, and the state is initial and final. A second state is outside.
def loneState : List UInt8 := "BUECHI\n1\n1\n0\n1\n1\n".toUTF8.toList
def strayState : List UInt8 := "BUECHI\n1\n1\n0\n2\n1\n".toUTF8.toList

theorem readBytes_decidedByPrefix_lone :
    (∀ rest, readBytes (loneState ++ rest) = readBytes loneState) ∧
      ∀ rest, readBytes (heading 5 strayState ++ rest) = .error (.malformed 5 (.outside .state 2 1)) := by
  have table : Reaches ([] ++ ["BUECHI".toList] ++ ["1".toList] ++ ["1".toList] ++ ["0".toList]) (.initial 1 1 []) :=
    (((Reaches.start.step rfl rfl).step rfl rfl).step rfl rfl).step rfl rfl
  have starts : Reaches ([] ++ ["BUECHI".toList] ++ ["1".toList] ++ ["1".toList] ++ ["0".toList] ++ ["1".toList])
      (.finals 1 1 [] (.ofList [0])) := table.step rfl rfl
  have done : Gives (linesRead loneState) 6 (.ok (.done 1 1 [] (.ofList [0]) (.ofList [0]))) :=
    ⟨_,"1".toList,_,by decide +kernel,by rfl,starts,by rfl⟩
  have failed : Gives (linesRead strayState) 5 (.error (.outside .state 2 1)) :=
    ⟨_,"2".toList,_,by decide +kernel,by rfl,table,by rfl⟩
  have whole : heading 6 loneState = loneState := by decide +kernel
  have fixed := ((readBytes_decidedByPrefix loneState).complete 6 _ done rfl).1
  have stray := readBytes_decidedByPrefix strayState
  constructor
  · intro rest
    have same := fixed.ended rest
    rwa [whole] at same
  · intro rest
    rw [(stray.faulty 5 _ failed).1.ended rest]
    exact ((stray.fails 5 (.outside .state 2 1) nofun).mp failed).1

-- The input ends behind a number of edges that is too large, so that nothing is said of the edges missing.
def hugeCount : List UInt8 := "BUECHI\n1\n1\n18446744073709551615\n".toUTF8.toList

theorem hugeCount_unanswered : ¬ ∀ bytes, readBytes bytes ≠ .error .notText →
    (∀ L fault, fault.isCut = false → readBytes bytes ≠ .error (.malformed L fault)) →
    (∃ A, readBytes bytes = .ok A) ∨
      ∃ fault, fault.isCut = true ∧ readBytes bytes = .error (.malformed (linesRead bytes).length fault) := by
  intro all
  have failed : readBytes hugeCount = .error (.panic .capacity) := failure?_eq_some.mp (by decide +kernel)
  obtain ⟨A,done⟩ | ⟨fault,-,ended⟩ := all hugeCount (by rw [failed]; nofun) (by rw [failed]; nofun)
  · cases failed.symm.trans done
  · cases failed.symm.trans ended

end BuchiToRabin.Automaton.Reader
