import BuchiToRabin.Proofs.Automaton.Format
namespace BuchiToRabin.Automaton.Reader
open Text

section
variable {α : Type} {upper lower : List (List Char) → Prop} {line : List Char} {ls : List (List Char)}

-- One row, and others that depend on what it says.
def First (row : List Char → α → Prop) (later : α → List (List Char) → Prop) : List (List Char) → Prop
  | [] => False
  | line :: rows => ∃ x, row line x ∧ later x rows

theorem first_iff {row : List Char → α → Prop} {later : α → List (List Char) → Prop} :
    First row later ls ↔ ∃ line rows x, ls = line :: rows ∧ row line x ∧ later x rows := by
  cases ls with
  | nil => exact iff_of_false id nofun
  | cons line rows =>
    constructor
    · rintro ⟨x,here,rest⟩
      exact ⟨line,rows,x,rfl,here,rest⟩
    · rintro ⟨_,_,x,same,here,rest⟩
      cases same
      exact ⟨x,here,rest⟩

theorem parted_nil (needs : ¬ upper []) : ¬ Parted upper lower [] := by
  intro parted
  obtain ⟨top,bottom,split,-,holds,-⟩ := parted
  obtain ⟨rfl,rfl⟩ := List.append_eq_nil_iff.mp split.symm
  exact needs holds

theorem parted_comment (comment : isComment line = true) :
    Parted upper lower (line :: ls) ↔ Parted upper lower ls := by
  unfold Parted
  rw [List.filter_cons_of_neg (by simp [comment])]

-- A row is still to come, so a blank line is above it.
theorem parted_blank (needs : ¬ upper []) : Parted upper lower ([] :: ls) ↔ Parted upper lower ls := by
  unfold Parted
  rw [List.filter_cons_of_pos (by rfl)]
  constructor
  · intro parted
    obtain ⟨top,bottom,split,ending,holds,below⟩ := parted
    rcases List.cons_eq_append_iff.mp split with ⟨rfl,-⟩ | ⟨top,rfl,rest⟩
    · exact absurd holds needs
    · refine ⟨top,bottom,rest,?_,holds,below⟩
      intro last
      rw [List.getLast?_cons,last] at ending
      exact ending rfl
  · intro parted
    obtain ⟨top,bottom,split,ending,holds,below⟩ := parted
    refine ⟨[] :: top,bottom,by rw [split,List.cons_append],?_,holds,below⟩
    cases top with
    | nil => exact absurd holds needs
    | cons line top => rwa [List.getLast?_cons_cons]

theorem parted_row (needs : ¬ upper []) (filled : line ≠ []) (plain : isComment line = false) :
    Parted upper lower (line :: ls) ↔ Parted (fun rows => upper (line :: rows)) lower ls := by
  have counts (top : List (List Char)) : (line :: top).filter (!·.isEmpty) = line :: top.filter (!·.isEmpty) :=
    List.filter_cons_of_pos (by simpa using filled)
  unfold Parted
  rw [List.filter_cons_of_pos (by simp [plain])]
  constructor
  · intro parted
    obtain ⟨top,bottom,split,ending,holds,below⟩ := parted
    rcases List.cons_eq_append_iff.mp split with ⟨rfl,-⟩ | ⟨top,rfl,rest⟩
    · exact absurd holds needs
    · rw [counts] at holds
      refine ⟨top,bottom,rest,?_,holds,below⟩
      intro last
      rw [List.getLast?_cons,last] at ending
      exact ending rfl
  · intro parted
    obtain ⟨top,bottom,split,ending,holds,below⟩ := parted
    refine ⟨line :: top,bottom,by rw [split,List.cons_append],?_,?_,below⟩
    · cases top with
      | nil => exact fun same => filled (Option.some.inj same)
      | cons row top => rwa [List.getLast?_cons_cons]
    · rw [counts]
      exact holds

theorem parted_exists {row : α → Prop} {later : α → List (List Char) → Prop} :
    Parted (fun rows => ∃ x, row x ∧ later x rows) lower ls ↔ ∃ x, row x ∧ Parted (later x) lower ls := by
  constructor
  · intro parted
    obtain ⟨top,bottom,split,ending,⟨x,here,holds⟩,below⟩ := parted
    exact ⟨x,here,top,bottom,split,ending,holds,below⟩
  · intro found
    obtain ⟨x,here,top,bottom,split,ending,holds,below⟩ := found
    exact ⟨top,bottom,split,ending,⟨x,here,holds⟩,below⟩

theorem parted_and {p : Prop} :
    Parted (fun rows => upper rows ∧ p) lower ls ↔ Parted upper lower ls ∧ p := by
  constructor
  · rintro ⟨top,bottom,split,ending,⟨holds,also⟩,below⟩
    exact ⟨⟨top,bottom,split,ending,holds,below⟩,also⟩
  · rintro ⟨⟨top,bottom,split,ending,holds,below⟩,also⟩
    exact ⟨top,bottom,split,ending,⟨holds,also⟩,below⟩

-- Without rows the upper part is empty: its last line would be a blank one.
theorem parted_done {p : Prop} :
    Parted (fun rows => rows = [] ∧ p) lower ls ↔ p ∧ lower (ls.filter (!isComment ·)) := by
  constructor
  · intro parted
    obtain ⟨top,bottom,split,ending,⟨none,holds⟩,below⟩ := parted
    cases last : top.getLast? with
    | none =>
      cases List.getLast?_eq_none_iff.mp last
      rw [split]
      exact ⟨holds,below⟩
    | some line =>
      have blank := List.filter_eq_nil_iff.mp none line (List.mem_of_getLast? last)
      rw [last] at ending
      cases line with
      | nil => exact absurd rfl ending
      | cons c line => exact absurd rfl blank
  · intro both
    exact ⟨[],_,rfl,nofun,⟨rfl,both.1⟩,both.2⟩

end

variable {D : Description} {s next : Stage} {n k m count : Nat} {read : List Edge} {line : List Char}
  {ls rows : List (List Char)}

-- The table is `D`'s own, with the latest edge first.
structure Description.Tabled (D : Description) (n k : Nat) (read : List Edge) : Prop where
  states : D.stateCount = n
  symbols : D.alphabetSize = k
  edges : D.edges = read.reverse

-- The table row by row, as far as it is still to be read.
def EdgeRows (D : Description) (n k : Nat) : List Edge → Nat → List (List Char) → Prop
  | read,0 => fun rows => rows = [] ∧ D.Tabled n k read
  | read,missing+1 => First (EdgeLine n k) fun e => EdgeRows D n k (e :: read) missing

def CountRows (D : Description) (n k : Nat) : List (List Char) → Prop :=
  First (fun line m => numeral? line = some m ∧ Machine.Fits 24 m) (EdgeRows D n k [])

def SymbolRows (D : Description) (n : Nat) : List (List Char) → Prop :=
  First (fun line k => numeral? line = some k) (CountRows D n)

def StateRows (D : Description) : List (List Char) → Prop :=
  First (fun line n => numeral? line = some n) (SymbolRows D)

theorem edgeRows_iff (m : Nat) : ∀ {read rows}, EdgeRows D n k read m rows ↔ rows.length = m ∧
    D.stateCount = n ∧ D.alphabetSize = k ∧
      ∃ later, List.Forall₂ (EdgeLine n k) rows later ∧ D.edges = read.reverse ++ later := by
  induction m with
  | zero =>
    intro read rows
    rw [EdgeRows,List.length_eq_zero_iff]
    constructor
    · intro done
      obtain ⟨rfl,states,symbols,edges⟩ := done
      exact ⟨rfl,states,symbols,[],.nil,by rw [edges,List.append_nil]⟩
    · intro done
      obtain ⟨rfl,states,symbols,later,listed,edges⟩ := done
      cases listed
      rw [List.append_nil] at edges
      exact ⟨rfl,states,symbols,edges⟩
  | succ m ih =>
    intro read rows
    cases rows with
    | nil => exact ⟨nofun,nofun⟩
    | cons line rows =>
      rw [EdgeRows,First]
      constructor
      · intro found
        obtain ⟨e,row,rest⟩ := found
        obtain ⟨length,states,symbols,later,listed,edges⟩ := ih.mp rest
        refine ⟨congrArg Nat.succ length,states,symbols,e :: later,.cons row listed,?_⟩
        rw [edges,List.reverse_cons,List.append_assoc,List.singleton_append]
      · intro found
        obtain ⟨length,states,symbols,_,listed,edges⟩ := found
        cases listed with
        | cons row listed =>
          rename_i e later
          refine ⟨e,row,ih.mpr ⟨Nat.succ.inj length,states,symbols,later,listed,?_⟩⟩
          rw [edges,List.reverse_cons,List.append_assoc,List.singleton_append]

-- The table that can be held: room for the edges is asked for when their number is read.
theorem tabulates_iff : Tabulates D rows ∧ Machine.Fits 24 D.edges.length ↔ StateRows D rows := by
  constructor
  · rintro ⟨table,room⟩
    cases table with
    | mk states symbols count edges =>
      rw [←edges.length_eq] at room
      exact ⟨_,states,_,symbols,_,⟨count,room⟩,(edgeRows_iff _).mpr ⟨rfl,rfl,rfl,_,edges,rfl⟩⟩
  · intro found
    obtain ⟨_,_,n,rfl,states,found⟩ := first_iff.mp found
    obtain ⟨_,_,k,rfl,symbols,found⟩ := first_iff.mp found
    obtain ⟨_,_,m,rfl,⟨count,room⟩,found⟩ := first_iff.mp found
    obtain ⟨rfl,rfl,rfl,later,listed,edges⟩ := (edgeRows_iff m).mp found
    rw [List.reverse_nil,List.nil_append] at edges
    rw [edges,←listed.length_eq]
    exact ⟨.mk states symbols count (edges ▸ listed),room⟩

-- Rows with a count of edges for which there is no room.
def CountOver : List (List Char) → Prop :=
  First (fun line m => numeral? line = some m ∧ ¬ Machine.Fits 24 m) fun _ _ => True

def SymbolOver : List (List Char) → Prop := First (fun line k => numeral? line = some k) fun _ => CountOver

def StateOver : List (List Char) → Prop := First (fun line n => numeral? line = some n) fun _ => SymbolOver

theorem overcounts_iff : Overcounts rows ↔ StateOver rows := by
  constructor
  · intro excess
    cases excess with
    | mk states symbols count excess => exact ⟨_,states,_,symbols,_,⟨count,excess⟩,trivial⟩
  · intro found
    obtain ⟨_,_,n,rfl,states,found⟩ := first_iff.mp found
    obtain ⟨_,_,k,rfl,symbols,found⟩ := first_iff.mp found
    obtain ⟨_,_,m,rfl,⟨count,excess⟩,-⟩ := first_iff.mp found
    exact .mk states symbols count excess

-- What the lines still to be read have to be for `D` to be described, with room for its edges.
def Stage.Completes (D : Description) : Stage → List (List Char) → Prop
  | .preamble => Headed (Parted (StateRows D) (ReadsSets D))
  | .stateCount => Parted (StateRows D) (ReadsSets D)
  | .alphabetSize n => Parted (SymbolRows D n) (ReadsSets D)
  | .edgeCount n k => Parted (CountRows D n k) (ReadsSets D)
  | .edges n k missing read => Parted (EdgeRows D n k read missing) (ReadsSets D)
  | .initial n k read => Parted (EdgeRows D n k read 0) (ReadsSets D)
  | .finals n k read start => fun ls => D.Tabled n k read ∧ D.initial = start ∧
    ReadsFinals D (ls.filter (!isComment ·))
  | .done n k read start ends => fun _ => D = ⟨n,k,read.reverse,start,ends⟩

-- What the lines still to be read have to be for their number to be too large.
def Stage.Oversteps : Stage → List (List Char) → Prop
  | .preamble => Headed (Parted StateOver fun _ => True)
  | .stateCount => Parted StateOver fun _ => True
  | .alphabetSize _ => Parted SymbolOver fun _ => True
  | .edgeCount _ _ => Parted CountOver fun _ => True
  | _ => fun _ => False

-- What has been read is in range.
def Stage.Sound : Stage → Prop
  | .preamble | .stateCount | .alphabetSize _ | .edgeCount _ _ => True
  | .edges n k missing read => 0 < missing ∧ ∀ e ∈ read, edgeError? n k e = none
  | .initial n k read => ∀ e ∈ read, edgeError? n k e = none
  | .finals n k read start => (∀ e ∈ read, edgeError? n k e = none) ∧ ∀ q ∈ start, q < n
  | .done n k read start ends =>
    (∀ e ∈ read, edgeError? n k e = none) ∧ (∀ q ∈ start, q < n) ∧ ∀ q ∈ ends, q < n

theorem completes_afterEdges (m : Nat) : (Stage.afterEdges n k read m).Completes D ls ↔
    Parted (EdgeRows D n k read m) (ReadsSets D) ls := by
  cases m <;> rfl

-- A stage that reads a line by `f`, and what that line and the lines after it have to be.
structure Stage.Reads {α : Type} (P : Stage → List (List Char) → Prop) (s : Stage)
    (f : List Char → Except Fault α) (move : α → Stage) (row : List Char → α → Prop) : Prop where
  take : ∀ text, s.take text = move <$> f text
  exact : ∀ {text x}, f text = .ok x ↔ row text x
  skip : ∀ {text ls}, s.skips text = true → (P s (text :: ls) ↔ P s ls)
  read : ∀ {text ls}, s.skips text = false → (P s (text :: ls) ↔ ∃ x, row text x ∧ P (move x) ls)

section
variable {α : Type} {P : Stage → List (List Char) → Prop} {f : List Char → Except Fault α} {move : α → Stage}
  {row : List Char → α → Prop} {later : α → List (List Char) → Prop} {lower : List (List Char) → Prop}

theorem Stage.Reads.feed (reads : Stage.Reads P s f move row) (line : List Char) (ls : List (List Char)) :
    P s (trim line :: ls) ↔ ∃ next, s.feed line = .ok next ∧ P next ls := by
  unfold Stage.feed
  dsimp only
  cases skips : s.skips (trim line) with
  | true =>
    rw [if_pos rfl,reads.skip skips]
    simp
  | false =>
    rw [if_neg Bool.false_ne_true,reads.take,reads.read skips]
    simp only [map_eq_ok,←reads.exact]
    constructor
    · intro found
      obtain ⟨x,read,completes⟩ := found
      exact ⟨_,⟨x,read,rfl⟩,completes⟩
    · intro found
      obtain ⟨_,⟨x,read,rfl⟩,completes⟩ := found
      exact ⟨x,read,completes⟩

theorem skips_eq (other : s ≠ .preamble) (text : List Char) :
    s.skips text = (isComment text || text.isEmpty && s.skipsBlank) := by
  cases s with
  | preamble => exact absurd rfl other
  | _ => simp [Stage.skips,isComment]

-- In the table blank lines are left out like comments.
theorem table_skip {text : List Char} (blank : s.skipsBlank = true) (skips : s.skips text = true) :
    Parted (First row later) lower (text :: ls) ↔ Parted (First row later) lower ls := by
  have other : s ≠ .preamble := by
    rintro rfl
    cases blank
  rw [skips_eq other,blank,Bool.and_true,Bool.or_eq_true,List.isEmpty_iff] at skips
  rcases skips with comment | rfl
  · exact parted_comment comment
  · exact parted_blank id

theorem table_row {text : List Char} (blank : s.skipsBlank = true) (reads : s.skips text = false) :
    Parted (First row later) lower (text :: ls) ↔ ∃ x, row text x ∧ Parted (later x) lower ls := by
  have other : s ≠ .preamble := by
    rintro rfl
    cases blank
  rw [skips_eq other,blank,Bool.and_true,Bool.or_eq_false_iff] at reads
  have filled : text ≠ [] := by
    rintro rfl
    cases reads.2
  rw [parted_row id filled reads.1]
  simp only [First,parted_exists]

theorem table_reads (blank : s.skipsBlank = true) (take : ∀ text, s.take text = move <$> f text)
    (exact : ∀ {text x}, f text = .ok x ↔ row text x)
    (here : ∀ ls, P s ls ↔ Parted (First row later) lower ls)
    (next : ∀ x ls, P (move x) ls ↔ Parted (later x) lower ls) : Stage.Reads P s f move row := by
  refine ⟨take,exact,?_,?_⟩
  · intro text ls skips
    rw [here,here,table_skip blank skips]
  · intro text ls reads
    simp only [here,table_row blank reads,next]

-- After the table blank lines count.
theorem sets_reads (below : List (List Char) → Prop) (other : s ≠ .preamble) (blank : s.skipsBlank = false)
    (take : ∀ text, s.take text = move <$> f text) (exact : ∀ {text x}, f text = .ok x ↔ row text x)
    (here : ∀ ls, P s ls ↔ below (ls.filter (!isComment ·)))
    (next : ∀ text ls, below (text :: ls.filter (!isComment ·)) ↔ ∃ x, row text x ∧ P (move x) ls) :
    Stage.Reads P s f move row := by
  refine ⟨take,exact,?_,?_⟩
  · intro text ls skips
    rw [skips_eq other,blank,Bool.and_false,Bool.or_false] at skips
    rw [here,here,List.filter_cons_of_neg (by simp [skips])]
  · intro text ls reads
    rw [skips_eq other,blank,Bool.and_false,Bool.or_false] at reads
    rw [here,List.filter_cons_of_pos (by simp [reads]),next]

end

section
variable {later : List (List Char) → Prop}

theorem headed_nil : ¬ Headed later [] := by
  rintro ⟨before,after,split,-⟩
  cases before <;> cases split

theorem headed_header : Headed later (header.toList :: ls) ↔ later ls := by
  constructor
  · rintro ⟨before,after,split,first,holds⟩
    rcases List.cons_eq_append_iff.mp split with ⟨-,same⟩ | ⟨before,rfl,-⟩
    · cases same
      exact holds
    · exact absurd (List.mem_cons_self ..) first
  · intro holds
    exact ⟨[],ls,rfl,List.not_mem_nil,holds⟩

theorem headed_other (other : line ≠ header.toList) : Headed later (line :: ls) ↔ Headed later ls := by
  constructor
  · rintro ⟨before,after,split,first,holds⟩
    rcases List.cons_eq_append_iff.mp split with ⟨-,same⟩ | ⟨before,rfl,rest⟩
    · cases same
      exact absurd rfl other
    · exact ⟨before,after,rest,fun late => first (.tail _ late),holds⟩
  · rintro ⟨before,after,rfl,first,holds⟩
    refine ⟨line :: before,after,rfl,?_,holds⟩
    intro listed
    rcases List.mem_cons.mp listed with same | late
    · exact other same.symm
    · exact first late

theorem headed_and {p : Prop} : Headed (fun ls => later ls ∧ p) ls ↔ Headed later ls ∧ p := by
  constructor
  · rintro ⟨before,after,split,first,holds,also⟩
    exact ⟨⟨before,after,split,first,holds⟩,also⟩
  · rintro ⟨⟨before,after,split,first,holds⟩,also⟩
    exact ⟨before,after,split,first,holds,also⟩

end

-- Before the header every line is taken, and nothing behind it looked at.
theorem preamble_feed {P : Stage → List (List Char) → Prop} (here : P .preamble = Headed (P .stateCount))
    (line : List Char) (ls : List (List Char)) :
    P .preamble (trim line :: ls) ↔ ∃ next, Stage.feed .preamble line = .ok next ∧ P next ls := by
  have fed : Stage.feed .preamble line =
      .ok (if trim line = header.toList then .stateCount else .preamble) := rfl
  rw [fed,here]
  by_cases found : trim line = header.toList
  · rw [if_pos found,found]
    simp only [Except.ok.injEq,exists_eq_left']
    exact headed_header
  · rw [if_neg found]
    simp only [Except.ok.injEq,exists_eq_left',here]
    exact headed_other found

theorem of_iff : D.Of ls ∧ Machine.Fits 24 D.edges.length ↔ Stage.preamble.Completes D ls := by
  have table : StateRows D = fun rows => Tabulates D rows ∧ Machine.Fits 24 D.edges.length :=
    funext fun _ => propext tabulates_iff.symm
  have whole : Parted (StateRows D) (ReadsSets D) =
      fun ls => Parted (Tabulates D) (ReadsSets D) ls ∧ Machine.Fits 24 D.edges.length := by
    rw [table]
    exact funext fun _ => propext parted_and
  rw [Stage.Completes,whole,headed_and,Description.Of]

theorem oversized_iff : Oversized ls ↔ Stage.preamble.Oversteps ls := by
  have table : Overcounts = StateOver := funext fun _ => propext overcounts_iff
  rw [Oversized,table]
  rfl

theorem feed_done (n k : Nat) (read : List Edge) (start ends : NatSet) (line : List Char) :
    (Stage.done n k read start ends).feed line = .ok (.done n k read start ends) := by
  unfold Stage.feed
  dsimp only
  split <;> rfl

-- One line read: the description goes on with the lines after it.
theorem completes_feed (sound : s.Sound) (line : List Char) (ls : List (List Char)) :
    s.Completes D (trim line :: ls) ↔ ∃ next, s.feed line = .ok next ∧ next.Completes D ls := by
  cases s with
  | preamble => exact preamble_feed rfl line ls
  | stateCount =>
    have reads : Stage.Reads (Stage.Completes D) .stateCount (number .stateCount) .alphabetSize
        fun line n => numeral? line = some n :=
      table_reads rfl (fun _ => rfl) number_exact (fun _ => Iff.rfl) (fun _ _ => Iff.rfl)
    exact reads.feed line ls
  | alphabetSize n =>
    have reads : Stage.Reads (Stage.Completes D) (.alphabetSize n) (number .alphabetSize) (.edgeCount n)
        fun line k => numeral? line = some k :=
      table_reads rfl (fun _ => rfl) number_exact (fun _ => Iff.rfl) (fun _ _ => Iff.rfl)
    exact reads.feed line ls
  | edgeCount n k =>
    have reads : Stage.Reads (Stage.Completes D) (.edgeCount n k) edgeTotal (.afterEdges n k [])
        fun line m => numeral? line = some m ∧ Machine.Fits 24 m :=
      table_reads rfl (fun _ => rfl) edgeTotal_exact (fun _ => Iff.rfl) (fun m _ => completes_afterEdges m)
    exact reads.feed line ls
  | edges n k missing read =>
    obtain ⟨m,rfl⟩ := Nat.exists_eq_add_of_le' sound.1
    have reads : Stage.Reads (Stage.Completes D) (.edges n k (m + 1) read) (edge n k)
        (fun e => .afterEdges n k (e :: read) m) (EdgeLine n k) :=
      table_reads rfl (fun _ => rfl) edge_exact (fun _ => Iff.rfl) (fun _ _ => completes_afterEdges m)
    exact reads.feed line ls
  | initial n k read =>
    have reads : Stage.Reads (Stage.Completes D) (.initial n k read) (states n) (.finals n k read) (StatesLine n) := by
      refine sets_reads (fun rest => D.Tabled n k read ∧ ReadsSets D rest) nofun rfl (fun _ => rfl) states_exact
        (fun _ => parted_done) ?_
      intro text ls
      constructor
      · intro found
        obtain ⟨tabled,line,finals⟩ := found
        exact ⟨D.initial,tabled.states ▸ line,tabled,rfl,finals⟩
      · intro found
        obtain ⟨_,line,tabled,rfl,finals⟩ := found
        exact ⟨tabled,tabled.states ▸ line,finals⟩
    exact reads.feed line ls
  | finals n k read start =>
    have reads : Stage.Reads (Stage.Completes D) (.finals n k read start) (states n) (.done n k read start)
        (StatesLine n) := by
      refine sets_reads (fun rest => D.Tabled n k read ∧ D.initial = start ∧ ReadsFinals D rest) nofun rfl
        (fun _ => rfl) states_exact (fun _ => Iff.rfl) ?_
      intro text ls
      constructor
      · intro found
        obtain ⟨⟨rfl,rfl,edges⟩,rfl,line⟩ := found
        exact ⟨D.finals,line,by cases D; cases edges; rfl⟩
      · intro found
        obtain ⟨_,line,rfl⟩ := found
        exact ⟨⟨rfl,rfl,rfl⟩,rfl,line⟩
    exact reads.feed line ls
  | done n k read start ends =>
    rw [feed_done]
    simp only [Except.ok.injEq,exists_eq_left']
    exact Iff.rfl

theorem EdgeLine.inside {e : Edge} (row : EdgeLine n k line e) : edgeError? n k e = none := by
  obtain ⟨-,leaves,reads,enters⟩ := row
  exact edgeError?_eq_none_iff.mpr ⟨⟨leaves.lt,enters.lt⟩,reads.inside⟩

theorem StatesLine.lt {set : NatSet} (row : StatesLine n line set) : ∀ q ∈ set, q < n := by
  obtain ⟨listed⟩ := row
  intro q present
  rw [NatSet.mem_ofList] at present
  obtain ⟨i,inside,rfl⟩ := List.mem_iff_getElem.mp present
  exact (listed.get (listed.length_eq ▸ inside) inside).lt

theorem sound_afterEdges (inside : ∀ e ∈ read, edgeError? n k e = none) (m : Nat) :
    (Stage.afterEdges n k read m).Sound := by
  cases m with
  | zero => exact inside
  | succ m => exact ⟨Nat.succ_pos m,inside⟩

theorem sound_take {text : List Char} (sound : s.Sound) (took : s.take text = .ok next) : next.Sound := by
  cases s with
  | preamble =>
    cases took
    split <;> exact trivial
  | stateCount =>
    obtain ⟨m,-,rfl⟩ := map_eq_ok.mp took
    exact trivial
  | alphabetSize n =>
    obtain ⟨m,-,rfl⟩ := map_eq_ok.mp took
    exact trivial
  | edgeCount n k =>
    obtain ⟨m,-,rfl⟩ := map_eq_ok.mp took
    exact sound_afterEdges (fun e listed => absurd listed List.not_mem_nil) m
  | edges n k missing read =>
    obtain ⟨e,row,done⟩ := bind_eq_ok.mp took
    cases done
    apply sound_afterEdges
    intro f listed
    rcases List.mem_cons.mp listed with rfl | earlier
    · exact (edge_exact.mp row).inside
    · exact sound.2 f earlier
  | initial n k read =>
    obtain ⟨start,row,rfl⟩ := map_eq_ok.mp took
    exact ⟨sound,(states_exact.mp row).lt⟩
  | finals n k read start =>
    obtain ⟨ends,row,rfl⟩ := map_eq_ok.mp took
    exact ⟨sound.1,sound.2,(states_exact.mp row).lt⟩
  | done n k read start ends =>
    cases took
    exact sound

theorem sound_feed (sound : s.Sound) (fed : s.feed line = .ok next) : next.Sound := by
  unfold Stage.feed at fed
  dsimp only at fed
  split at fed
  · cases fed
    exact sound
  · exact sound_take sound fed

-- Faults of a line: not those of the end of the input, and not of a number of edges that is too large.
def Fault.inLine : Fault → Bool
  | .expected .. | .outside .. | .fewFields _ => true
  | .noHeader | .headerCut | .edgesCut _ | .oversized => false

section
variable {fault : Fault} {what : Quantity} {token : List Char}

theorem number_fault (failed : number what token = .error fault) : fault.inLine = true := by
  unfold number at failed
  split at failed <;> cases failed
  rfl

theorem index_fault (failed : index what n token = .error fault) : fault.inLine = true := by
  unfold index at failed
  split at failed
  · rename_i f read
    cases failed
    exact number_fault read
  · split at failed <;> cases failed
    rfl

theorem stateIndex_fault (failed : stateIndex n token = .error fault) : fault.inLine = true :=
  index_fault (map_eq_error.mp failed)

theorem states_fault (failed : states n line = .error fault) : fault.inLine = true := by
  have failed := map_eq_error.mp failed
  generalize fields line = tokens at failed
  induction tokens with
  | nil => cases failed
  | cons token tokens ih =>
    rw [List.mapM_cons] at failed
    rcases bind_eq_error.mp failed with first | ⟨q,-,rest⟩
    · exact stateIndex_fault first
    · rcases bind_eq_error.mp rest with later | ⟨qs,-,done⟩
      · exact ih later
      · cases done

theorem edge_fault (failed : edge n k line = .error fault) : fault.inLine = true := by
  unfold edge at failed
  split at failed
  · rcases bind_eq_error.mp failed with source | ⟨q,-,rest⟩
    · exact stateIndex_fault source
    · rcases bind_eq_error.mp rest with symbol | ⟨a,-,rest⟩
      · exact index_fault symbol
      · rcases bind_eq_error.mp rest with target | ⟨t,-,done⟩
        · exact stateIndex_fault target
        · cases done
  · cases failed
    rfl

theorem edgeTotal_fault (failed : edgeTotal token = .error fault) : fault.inLine = true ∨ fault = .oversized := by
  unfold edgeTotal at failed
  split at failed
  · rename_i f read
    cases failed
    exact .inl (number_fault read)
  · split at failed <;> cases failed
    exact .inr rfl

-- The preamble takes every line. Elsewhere a line fails by what it says, or as the number of edges.
theorem feed_fault (failed : s.feed line = .error fault) :
    s ≠ .preamble ∧ (fault.inLine = true ∨ fault = .oversized ∧ ∃ n k, s = .edgeCount n k) := by
  unfold Stage.feed at failed
  dsimp only at failed
  split at failed
  · cases failed
  · cases s with
    | preamble => cases failed
    | stateCount | alphabetSize _ => exact ⟨nofun,.inl (number_fault (map_eq_error.mp failed))⟩
    | edgeCount n k => exact ⟨nofun,(edgeTotal_fault (map_eq_error.mp failed)).imp id fun excess => ⟨excess,n,k,rfl⟩⟩
    | edges n k missing read =>
      rcases bind_eq_error.mp failed with row | ⟨e,-,done⟩
      · exact ⟨nofun,.inl (edge_fault row)⟩
      · cases done
    | initial n k read | finals n k read start => exact ⟨nofun,.inl (states_fault (map_eq_error.mp failed))⟩
    | done n k read start ends => cases failed

theorem Fault.error_inLine (inLine : fault.inLine = true) (L : Nat) : fault.error L = .malformed L fault := by
  cases fault with
  | oversized => cases inLine
  | _ => rfl

theorem Fault.error_cases (fault : Fault) (L : Nat) :
    (∃ count f, fault.error L = .malformed count f) ∨ fault.error L = .panic .capacity := by
  cases fault with
  | oversized => exact .inr rfl
  | _ => exact .inl ⟨_,_,rfl⟩

theorem Fault.error_reserved (L : Nat) : fault.error L = .panic .capacity ↔ fault = .oversized := by
  cases fault <;> simp [Fault.error]

end

-- An answer that is an automaton as described, where there is room for its table, or else tells of a malformed
-- line or of a number of edges that is too large.
structure Answers (answer : Except Error Automaton) (what : Description → Prop) : Prop where
  accepts : (∃ A, answer = .ok A) ↔ ∃ D, what D ∧ ∀ e ∈ D.edges, Transitions.Roomy e
  exact : ∀ A D, answer = .ok A → what D → D.Matches A
  panics : ∀ D, what D → (∃ e ∈ D.edges, ¬ Transitions.Roomy e) →
    ∃ p, answer = .error (.rejected (.transitions (.panic p)))
  refuses : (¬ ∃ D, what D) → (∃ line fault, answer = .error (.malformed line fault)) ∨
    answer = .error (.panic .capacity)

theorem answers_failed {e : Error} {what : Description → Prop}
    (failed : (∃ line fault, e = .malformed line fault) ∨ e = .panic .capacity) (none : ∀ D, ¬ what D) :
    Answers (.error e) what where
  accepts := iff_of_false nofun fun found => none _ found.choose_spec.1
  exact A D done := by cases done
  panics D described := absurd described (none D)
  refuses _ := failed.imp (fun ⟨line,fault,same⟩ => ⟨line,fault,congrArg _ same⟩) (congrArg _)

theorem answers_assemble {what : Description → Prop} {start ends : NatSet}
    (inside : ∀ e ∈ read, edgeError? n k e = none) (start_lt : ∀ q ∈ start, q < n) (ends_lt : ∀ q ∈ ends, q < n)
    (only : ∀ D, what D ↔ D = ⟨n,k,read.reverse,start,ends⟩) :
    Answers (assemble n k read start ends) what := by
  have edges : ∀ e ∈ read.reverse, edgeError? n k e = none :=
    fun e listed => inside e (List.mem_reverse.mp listed)
  have described : what ⟨n,k,read.reverse,start,ends⟩ := (only _).mpr rfl
  unfold assemble
  by_cases roomy : ∀ e ∈ read.reverse, Transitions.Roomy e
  · obtain ⟨A,built,fits⟩ := build_ok edges start_lt ends_lt roomy
    rw [built]
    refine ⟨⟨fun _ => ⟨_,described,roomy⟩,fun _ => ⟨A,rfl⟩⟩,?_,?_,fun none => absurd ⟨_,described⟩ none⟩
    · intro B D same here
      cases same
      rw [(only D).mp here]
      exact fits
    · rintro D here ⟨e,listed,cramped⟩
      rw [(only D).mp here] at listed
      exact absurd (roomy e listed) cramped
  · have cramped : ∃ e ∈ read.reverse, ¬ Transitions.Roomy e := by simpa using roomy
    obtain ⟨p,failed⟩ := build_panics edges start_lt ends_lt cramped
    rw [failed]
    refine ⟨iff_of_false nofun ?_,nofun,fun _ _ _ => ⟨p,rfl⟩,fun none => absurd ⟨_,described⟩ none⟩
    rintro ⟨D,here,all⟩
    rw [(only D).mp here] at all
    exact roomy all

theorem answers_finish (sound : s.Sound) (count : Nat) : Answers (s.finish count) (s.Completes · []) := by
  have empty (n : Nat) : ∀ q ∈ (∅ : NatSet), q < n := fun q none => absurd none NatSet.not_mem_empty
  cases s with
  | preamble => exact answers_failed (.inl ⟨count,_,rfl⟩) fun D => headed_nil
  | stateCount => exact answers_failed (.inl ⟨count,_,rfl⟩) fun D => parted_nil id
  | alphabetSize n => exact answers_failed (.inl ⟨count,_,rfl⟩) fun D => parted_nil id
  | edgeCount n k => exact answers_failed (.inl ⟨count,_,rfl⟩) fun D => parted_nil id
  | edges n k missing read =>
    obtain ⟨m,rfl⟩ := Nat.exists_eq_add_of_le' sound.1
    exact answers_failed (.inl ⟨count,_,rfl⟩) fun D => parted_nil id
  | initial n k read =>
    refine answers_assemble sound (empty n) (empty n) ?_
    intro D
    refine parted_done.trans ⟨?_,?_⟩
    · intro found
      obtain ⟨⟨rfl,rfl,edges⟩,start,ends⟩ := found
      cases D
      cases edges
      cases start
      cases ends
      rfl
    · rintro rfl
      exact ⟨⟨rfl,rfl,rfl⟩,rfl,rfl⟩
  | finals n k read start =>
    refine answers_assemble sound.1 sound.2 (empty n) ?_
    intro D
    constructor
    · intro found
      obtain ⟨⟨rfl,rfl,edges⟩,rfl,ends⟩ := found
      cases D
      cases edges
      cases ends
      rfl
    · rintro rfl
      exact ⟨⟨rfl,rfl,rfl⟩,rfl,rfl⟩
  | done n k read start ends => exact answers_assemble sound.1 sound.2.1 sound.2.2 fun _ => Iff.rfl

-- By induction on the lines: one is read, and what it leaves to be described is described by the rest.
theorem answers_readFrom (ls : List (List Char)) : ∀ {s : Stage} (count : Nat), s.Sound →
    Answers (readFrom s count (ls.map some)) (s.Completes · (ls.map trim)) := by
  induction ls with
  | nil => intro s count sound; exact answers_finish sound count
  | cons line ls ih =>
    intro s count sound
    rw [List.map_cons,List.map_cons,readFrom]
    cases fed : s.feed line with
    | error fault =>
      refine answers_failed (fault.error_cases _) ?_
      intro D described
      obtain ⟨next,read,-⟩ := (completes_feed sound line _).mp described
      rw [fed] at read
      cases read
    | ok next =>
      have rest : (s.Completes · (trim line :: ls.map trim)) = (next.Completes · (ls.map trim)) := by
        funext D
        rw [completes_feed sound,fed]
        simp
      have later := sound_feed sound fed
      rw [rest]
      dsimp only
      cases ended : next.isDone with
      | false => exact ih (count + 1) later
      | true =>
        -- The lines that are not read do not matter.
        cases next with
        | done n k read start ends => exact answers_finish later (count + 1)
        | _ => cases ended

-- Once the number of edges is read there is none to come.
theorem not_oversteps_afterEdges (m : Nat) : ¬ (Stage.afterEdges n k read m).Oversteps ls := by
  cases m <;> exact id

theorem feed_ne_oversized (other : ∀ n k, s ≠ .edgeCount n k) : s.feed line ≠ .error .oversized := by
  intro failed
  rcases (feed_fault failed).2 with inLine | ⟨-,n,k,here⟩
  · cases inLine
  · exact other n k here

theorem Stage.Reads.oversteps {α : Type} {f : List Char → Except Fault α} {move : α → Stage} {row : List Char → α → Prop}
    (reads : Stage.Reads Stage.Oversteps s f move row) (other : ∀ n k, s ≠ .edgeCount n k) (line : List Char)
    (ls : List (List Char)) : s.Oversteps (trim line :: ls) ↔
      s.feed line = .error .oversized ∨ ∃ next, s.feed line = .ok next ∧ next.Oversteps ls := by
  rw [or_iff_right (feed_ne_oversized other)]
  exact reads.feed line ls

-- A number that is too large is what the line says, or comes later.
theorem oversteps_feed (line : List Char) (ls : List (List Char)) : s.Oversteps (trim line :: ls) ↔
    s.feed line = .error .oversized ∨ ∃ next, s.feed line = .ok next ∧ next.Oversteps ls := by
  cases s with
  | preamble =>
    rw [or_iff_right (feed_ne_oversized (s := .preamble) nofun)]
    exact preamble_feed rfl line ls
  | stateCount =>
    have reads : Stage.Reads Stage.Oversteps .stateCount (number .stateCount) .alphabetSize
        fun line n => numeral? line = some n :=
      table_reads rfl (fun _ => rfl) number_exact (fun _ => Iff.rfl) (fun _ _ => Iff.rfl)
    exact reads.oversteps nofun line ls
  | alphabetSize n =>
    have reads : Stage.Reads Stage.Oversteps (.alphabetSize n) (number .alphabetSize) (.edgeCount n)
        fun line k => numeral? line = some k :=
      table_reads rfl (fun _ => rfl) number_exact (fun _ => Iff.rfl) (fun _ _ => Iff.rfl)
    exact reads.oversteps nofun line ls
  | edgeCount n k =>
    unfold Stage.feed Stage.Oversteps
    dsimp only
    cases skips : (Stage.edgeCount n k).skips (trim line) with
    | true =>
      rw [if_pos rfl,CountOver,table_skip (s := .edgeCount n k) rfl skips]
      simp
    | false =>
      have all : Parted (fun _ => True) (fun _ => True) ls := ⟨[],_,rfl,nofun,trivial,trivial⟩
      rw [if_neg Bool.false_ne_true,CountOver,table_row (s := .edgeCount n k) rfl skips,Stage.take,map_eq_error,
        edgeTotal_oversized]
      simp only [all,and_true,map_eq_ok]
      refine (or_iff_left ?_).symm
      rintro ⟨_,⟨m,-,rfl⟩,later⟩
      exact not_oversteps_afterEdges m later
  | edges n k missing read =>
    have reads : Stage.Reads Stage.Oversteps (.edges n k missing read) (edge n k)
        (fun e => .afterEdges n k (e :: read) (missing - 1)) (EdgeLine n k) :=
      ⟨fun _ => rfl,edge_exact,fun _ => Iff.rfl,fun _ => iff_of_false id fun ⟨_,_,later⟩ =>
        not_oversteps_afterEdges _ later⟩
    exact reads.oversteps nofun line ls
  | initial n k read =>
    have reads : Stage.Reads Stage.Oversteps (.initial n k read) (states n) (.finals n k read) (StatesLine n) :=
      ⟨fun _ => rfl,states_exact,fun _ => Iff.rfl,fun _ => iff_of_false id fun ⟨_,_,later⟩ => later⟩
    exact reads.oversteps nofun line ls
  | finals n k read start =>
    have reads : Stage.Reads Stage.Oversteps (.finals n k read start) (states n) (.done n k read start)
        (StatesLine n) :=
      ⟨fun _ => rfl,states_exact,fun _ => Iff.rfl,fun _ => iff_of_false id fun ⟨_,_,later⟩ => later⟩
    exact reads.oversteps nofun line ls
  | done n k read start ends =>
    rw [or_iff_right (feed_ne_oversized (s := .done n k read start ends) nofun),feed_done]
    simp only [Except.ok.injEq,exists_eq_left']
    exact Iff.rfl

theorem assemble_reserved (n k : Nat) (read : List Edge) (start ends : NatSet) :
    assemble n k read start ends ≠ .error (.panic .capacity) := by
  unfold assemble
  split <;> nofun

theorem finish_reserved (s : Stage) (count : Nat) : s.finish count ≠ .error (.panic .capacity) := by
  cases s with
  | initial | finals | done => exact assemble_reserved _ _ _ _ _
  | _ => nofun

theorem not_oversteps_nil (s : Stage) : ¬ s.Oversteps [] := by
  cases s with
  | preamble => exact headed_nil
  | stateCount | alphabetSize | edgeCount => exact parted_nil id
  | _ => exact id

theorem reserves_readFrom (ls : List (List Char)) : ∀ {s : Stage} (count : Nat),
    readFrom s count (ls.map some) = .error (.panic .capacity) ↔ s.Oversteps (ls.map trim) := by
  induction ls with
  | nil => intro s count; exact iff_of_false (finish_reserved s count) (not_oversteps_nil s)
  | cons line ls ih =>
    intro s count
    rw [List.map_cons,List.map_cons,readFrom,oversteps_feed]
    cases fed : s.feed line with
    | error fault =>
      simp only [Except.error.injEq,Fault.error_reserved,reduceCtorEq,false_and,exists_false,or_false]
    | ok next =>
      simp only [reduceCtorEq,false_or,Except.ok.injEq,exists_eq_left']
      cases ended : next.isDone with
      | false => exact ih (count + 1)
      | true =>
        cases next with
        | done n k read start ends => exact iff_of_false (finish_reserved (.done n k read start ends) (count + 1)) id
        | _ => cases ended

-- What the reader makes of a text. It takes what is in the format with room for its edges, and reads it as it is
-- described. Otherwise it refuses the text, or stops where there is no room.
structure Exactly (ls : List (List Char)) (answer : Except Error Automaton) : Prop where
  accepts : (∃ A, answer = .ok A) ↔ ∃ D : Description, D.Of ls ∧ D.Fits
  exact : ∀ A (D : Description), answer = .ok A → D.Of ls → D.Matches A
  refuses : (¬ ∃ D : Description, D.Of ls) → ¬ Oversized ls → ∃ line fault, answer = .error (.malformed line fault)
  panics : ∀ D : Description, D.Of ls → ¬ Oversized ls → ¬ D.Fits →
    ∃ p, answer = .error (.rejected (.transitions (.panic p)))
  reserves : answer = .error (.panic .capacity) ↔ Oversized ls

theorem Description.Of.count_fits (described : D.Of ls) (reserves : ¬ Oversized ls) :
    Machine.Fits 24 D.edges.length := by
  obtain ⟨before,after,split,first,top,bottom,parts,ending,table,-⟩ := described
  by_contra excess
  refine reserves ⟨before,after,split,first,top,bottom,parts,ending,?_,trivial⟩
  generalize top.filter _ = rows at table ⊢
  cases table with
  | mk states symbols count edges =>
    rw [←edges.length_eq] at excess
    exact .mk states symbols count excess

theorem readText_reserves (text : String) :
    readText text = .error (.panic .capacity) ↔ Oversized (trimmedLines text) := by
  have trimmed : trimmedLines text = (lines '\n' text.toList).map trim :=
    List.map_congr_left fun line _ => trim_chomp line
  rw [trimmed,oversized_iff]
  exact reserves_readFrom _ 0

theorem readText_exact (text : String) : Exactly (trimmedLines text) (readText text) := by
  have trimmed : trimmedLines text = (lines '\n' text.toList).map trim :=
    List.map_congr_left fun line _ => trim_chomp line
  have answers : Answers (readText text)
      fun D => D.Of (trimmedLines text) ∧ Machine.Fits 24 D.edges.length := by
    simp only [of_iff,trimmed]
    exact answers_readFrom _ 0 trivial
  have reserves := readText_reserves text
  refine ⟨answers.accepts.trans (exists_congr fun D => ?_),?_,?_,?_,reserves⟩
  · exact ⟨fun ⟨⟨described,count⟩,edges⟩ => ⟨described,count,edges⟩,
      fun ⟨described,fits⟩ => ⟨⟨described,fits.count⟩,fits.edges⟩⟩
  · intro A D done described
    have small : ¬ Oversized (trimmedLines text) := fun excess => by cases done.symm.trans (reserves.mpr excess)
    exact answers.exact A D done ⟨described,described.count_fits small⟩
  · intro undescribed small
    rcases answers.refuses (fun ⟨D,described,_⟩ => undescribed ⟨D,described⟩) with malformed | excess
    · exact malformed
    · exact absurd (reserves.mp excess) small
  · intro D described small cramped
    have count := described.count_fits small
    refine answers.panics D ⟨described,count⟩ ?_
    by_contra all
    exact cramped ⟨count,by simpa using all⟩

-- The blank line after the only edge stands for no initial states; the last line is not read.
example : (readText "x\nBUECHI\n# a\n2\n1\n\n1\n1 -- +1 -> 2\n\n 2 01\nx").toOption.map (fun A => (A.initial,A.finals)) =
    some (∅,.ofList [0,1]) := by decide +kernel

-- One edge, whose symbol is the last word there is.
def farSymbol : String := "BUECHI\n1\n18446744073709551615\n1\n1 -- 18446744073709551615 -> 1\n1\n1\n"

def farSymbolTable : List (List Char) :=
  ["1".toList,"18446744073709551615".toList,"1".toList,"1 -- 18446744073709551615 -> 1".toList]

theorem farSymbol_described :
    Description.Of ⟨1,UInt64.size - 1,[⟨0,UInt64.size - 1,0⟩],.ofList [0],.ofList [0]⟩ (trimmedLines farSymbol) := by
  have split : trimmedLines farSymbol = [] ++ header.toList :: (farSymbolTable ++ ["1".toList,"1".toList]) := by
    decide +kernel
  have row : EdgeLine 1 (UInt64.size - 1) "1 -- 18446744073709551615 -> 1".toList ⟨0,UInt64.size - 1,0⟩ :=
    edge_exact.mp (by decide +kernel)
  have states : StatesLine 1 "1".toList (.ofList [0]) := states_exact.mp (by decide +kernel)
  refine ⟨[],_,split,nofun,farSymbolTable,["1".toList,"1".toList],by decide +kernel,by decide +kernel,?_,states,states⟩
  exact .mk (by decide +kernel) (by decide +kernel) (by decide +kernel) (.cons row .nil)

theorem farSymbol_refused : ¬ ∀ text, ¬ Oversized (trimmedLines text) →
    ((∃ A, readText text = .ok A) ↔ ∃ D : Description, D.Of (trimmedLines text)) := by
  intro all
  have failed : readText farSymbol = .error (.rejected (.transitions (.panic .capacity))) :=
    failure?_eq_some.mp (by decide +kernel)
  have small : ¬ Oversized (trimmedLines farSymbol) := by
    intro excess
    cases failed.symm.trans ((readText_reserves farSymbol).mpr excess)
  obtain ⟨A,done⟩ := (all farSymbol small).mpr ⟨_,farSymbol_described⟩
  cases failed.symm.trans done

end BuchiToRabin.Automaton.Reader
