import Mathlib.Data.List.Induction
import BuchiToRabin.Proofs.Store.Lookup
namespace BuchiToRabin.Store

-- Commands with their answers, from the first to the last.
abbrev Log (α : Type u) := List (Command α × Answer α)

namespace Log

variable {α : Type u}

-- The values put, each under the index it was answered. A put that failed leaves nothing here.
def puts (log : Log α) : List (Nat × α) := log.filterMap fun
  | (.put v,.put i _) => some (i,v)
  | _ => none

-- Those among them that were new.
def news (log : Log α) : List (Nat × α) := log.filterMap fun
  | (.put v,.put i true) => some (i,v)
  | _ => none

def adds (log : Log α) : List (Nat × α) := log.filterMap fun
  | (.add v,.index i) => some (i,v)
  | _ => none

variable {l m : Log α}

theorem puts_append : Log.puts (l ++ m) = l.puts ++ m.puts := List.filterMap_append

theorem news_append : Log.news (l ++ m) = l.news ++ m.news := List.filterMap_append

theorem adds_append : Log.adds (l ++ m) = l.adds ++ m.adds := List.filterMap_append

end Log

section
variable {α : Type u} [BEq α]

-- The index of the first value listed that is equal to `v`.
def firstEqual (es : List (Nat × α)) (v : α) : Option Nat := (es.find? fun e => v == e.2).map Prod.fst

theorem firstEqual_append (es : List (Nat × α)) (i : Nat) (v w : α) :
    firstEqual (es ++ [(i,v)]) w = (firstEqual es w).or (if w == v then some i else none) := by
  unfold firstEqual
  rw [List.find?_append,List.find?_singleton]
  cases es.find? fun e => w == e.2 with
  | some e => rfl
  | none => cases w == v <;> rfl

-- Where nothing is equal to `w`, nothing is equal to what `w` is equal to.
theorem firstEqual_none [EquivBEq α] {es : List (Nat × α)} (absent : firstEqual es w = none)
    (same : (w == v) = true) : firstEqual es v = none := by
  unfold firstEqual at *
  rw [Option.map_eq_none_iff,List.find?_eq_none] at *
  intro e listed equal
  exact absent e listed (BEq.trans same equal)

end

section
variable {α : Type u} [BEq α] [Fingerprint α]

def trace (s : Store α) : List (Command α) → Log α
  | [] => []
  | c :: cs => (c,(s.step c).1) :: trace (s.step c).2 cs

-- The three ways in which a put can end.
inductive Puts (s : Store α) (v : α) : Answer α → Store α → Prop where
  | again (found : s.find v = some i) : Puts s v (.put i false) s
  | new (absent : s.find v = none) (room : s.count + 1 < s.size.capacity) (appends : s.Appends v t) :
      Puts s v (.put (s.count + 1) true) t
  | full (absent : s.find v = none) (full : s.size.capacity ≤ s.count + 1) : Puts s v (.failed .full) s

inductive Adds (s : Store α) (v : α) : Answer α → Store α → Prop where
  | new (room : s.count + 1 < s.size.capacity) : Adds s v (.index (s.count + 1)) (s.push v)
  | full (full : s.size.capacity ≤ s.count + 1) : Adds s v (.failed .full) s

def Command.Looks : Command α → Prop
  | .put _ | .add _ => False
  | _ => True

-- What a command answers and leaves behind. Only the commands that store something leave another store.
inductive Steps (s : Store α) : Command α → Answer α → Store α → Prop where
  | put (puts : s.Puts v answer t) : Steps s (.put v) answer t
  | add (adds : s.Adds v answer t) : Steps s (.add v) answer t
  | look (looks : c.Looks) : Steps s c answer s

end

variable {α : Type u} [BEq α] [Fingerprint α] {s t : Store α} {v w : α} {i : Nat} {log : Log α}
  {answer : Answer α} {b : StorageBits}

theorem trace_append (cs ds : List (Command α)) : ∀ s : Store α,
    s.trace (cs ++ ds) = s.trace cs ++ (s.run cs).trace ds := by
  induction cs with
  | nil => intro s; rfl
  | cons c cs ih => intro s; exact congrArg _ (ih (s.step c).2)

theorem run_append (s : Store α) (cs ds : List (Command α)) : s.run (cs ++ ds) = (s.run cs).run ds :=
  List.foldl_append

theorem puts_of_put {done : Except Error (Nat × Bool)} (ran : s.put v = (done,t)) :
    s.Puts v (match done with
      | .ok (i,isNew) => .put i isNew
      | .error e => .failed e) t := by
  cases done with
  | error e =>
    obtain ⟨absent,full,rfl,rfl⟩ := put_error ran
    exact .full absent full
  | ok place =>
    obtain ⟨i,isNew⟩ := place
    rcases put_ok ran with ⟨found,rfl,rfl⟩ | ⟨absent,rfl,rfl,room,appends⟩
    · exact .again found
    · exact .new absent room appends

theorem step_exact {c : Command α} (ran : s.step c = (answer,t)) : s.Steps c answer t := by
  cases c with
  | put v =>
    unfold step at ran
    dsimp only at ran
    rcases put : s.put v with ⟨done,u⟩
    have puts := puts_of_put put
    rw [put] at ran
    cases done <;> cases ran <;> exact .put puts
  | add v =>
    unfold step add at ran
    dsimp only at ran
    by_cases room : s.count + 1 < s.size.capacity
    · rw [if_pos room] at ran
      cases ran
      exact .add (.new room)
    · rw [if_neg room] at ran
      cases ran
      exact .add (.full (Nat.le_of_not_lt room))
  | find v => cases ran; exact .look trivial
  | entries => cases ran; exact .look trivial
  | value i =>
    unfold step at ran
    dsimp only at ran
    split at ran
    · cases ran; exact .look trivial
    · cases ran; exact .look trivial
  | next i =>
    unfold step at ran
    dsimp only at ran
    split at ran
    · cases ran; exact .look trivial
    · cases ran; exact .look trivial

-- No command changes the value at an index.
theorem Steps.value {c : Command α} (steps : s.Steps c answer t) (held : s.value i = .ok w) :
    t.value i = .ok w := by
  cases steps with
  | put puts =>
    cases puts with
    | again => exact held
    | new _ _ appends => exact (value_push appends.values).mpr (.inl held)
    | full => exact held
  | add adds =>
    cases adds with
    | new => exact (value_push rfl).mpr (.inl held)
    | full => exact held
  | look => exact held

theorem value_run (cs : List (Command α)) : ∀ {s : Store α}, s.value i = .ok v →
    (s.run cs).value i = .ok v := by
  induction cs with
  | nil => intro s held; exact held
  | cons c cs ih => intro s held; exact ih ((step_exact rfl).value held)

-- What a log tells of the store: what its chains list, and what stands outside them.
structure Recorded (b : StorageBits) (s : Store α) (log : Log α) : Prop where
  size : s.size = b
  lists : s.Lists log.news
  first : ∀ v, firstEqual log.puts v = firstEqual log.news v
  outside : ∀ e ∈ log.adds, e.1 ≤ s.count ∧ e.1 ∉ log.news.map Prod.fst

theorem recorded_empty (b : StorageBits) : Recorded b (empty b : Store α) [] where
  size := rfl
  lists := empty_lists b
  first _ := rfl
  outside := nofun

namespace Recorded

variable [LawfulFingerprint α]

theorem find_eq (recorded : Recorded b s log) (v : α) : s.find v = firstEqual log.puts v := by
  rw [recorded.first]
  exact recorded.lists.find_eq v

omit [LawfulFingerprint α] in
-- A command that stores nothing leaves no trace in the lists.
theorem skip (recorded : Recorded b s log) {e : Command α × Answer α} (puts : Log.puts [e] = [])
    (news : Log.news [e] = []) (adds : Log.adds [e] = []) : Recorded b s (log ++ [e]) := by
  obtain ⟨size,lists,first,outside⟩ := recorded
  rw [←List.append_nil log.puts,←puts,←Log.puts_append] at first
  rw [←List.append_nil log.news,←news,←Log.news_append] at lists first outside
  rw [←List.append_nil log.adds,←adds,←Log.adds_append] at outside
  exact ⟨size,lists,first,outside⟩

theorem put [EquivBEq α] (recorded : Recorded b s log) (puts : s.Puts v answer t) :
    Recorded b t (log ++ [(.put v,answer)]) := by
  have found := recorded.find_eq v
  cases puts with
  | again looked =>
    obtain ⟨size,lists,first,outside⟩ := recorded
    rename_i i
    have puts : Log.puts (log ++ [(.put v,.put i false)]) = log.puts ++ [(i,v)] := Log.puts_append
    have news : Log.news (log ++ [(.put v,.put i false)]) = log.news ++ [] := Log.news_append
    have adds : Log.adds (log ++ [(.put v,.put i false)]) = log.adds ++ [] := Log.adds_append
    rw [List.append_nil] at news adds
    refine ⟨size,news ▸ lists,?_,by rw [news,adds]; exact outside⟩
    intro w
    rw [puts,news,firstEqual_append,←first w]
    cases absent : firstEqual log.puts w with
    | some j => rfl
    | none =>
      -- An equal value would have been found for `w` too.
      rw [Option.none_or]
      split
      · rename_i same
        rw [looked,firstEqual_none absent same] at found
        cases found
      · rfl
  | new absent room appends =>
    obtain ⟨size,lists,first,outside⟩ := recorded
    have puts : Log.puts (log ++ [(.put v,.put (s.count + 1) true)]) = log.puts ++ [(s.count + 1,v)] :=
      Log.puts_append
    have news : Log.news (log ++ [(.put v,.put (s.count + 1) true)]) = log.news ++ [(s.count + 1,v)] :=
      Log.news_append
    have adds : Log.adds (log ++ [(.put v,.put (s.count + 1) true)]) = log.adds ++ [] := Log.adds_append
    rw [List.append_nil] at adds
    refine ⟨appends.size.trans size,news ▸ lists.append appends,?_,?_⟩
    · intro w
      rw [puts,news,firstEqual_append,firstEqual_append,first w]
    · intro e added
      obtain ⟨old,apart⟩ := outside e (adds ▸ added)
      rw [appends.count_eq,news,List.map_append,List.mem_append]
      refine ⟨Nat.le_succ_of_le old,?_⟩
      intro listed
      rcases listed with before | last
      · exact apart before
      · rw [List.mem_singleton.mp last] at old
        omega
  | full absent full => exact recorded.skip rfl rfl rfl

omit [LawfulFingerprint α] in
theorem add (recorded : Recorded b s log) (adds : s.Adds v answer t) :
    Recorded b t (log ++ [(.add v,answer)]) := by
  cases adds with
  | new room =>
    obtain ⟨size,lists,first,outside⟩ := recorded
    have puts : Log.puts (log ++ [(.add v,.index (s.count + 1))]) = log.puts ++ [] := Log.puts_append
    have news : Log.news (log ++ [(.add v,.index (s.count + 1))]) = log.news ++ [] := Log.news_append
    have adds : Log.adds (log ++ [(.add v,.index (s.count + 1))]) = log.adds ++ [(s.count + 1,v)] :=
      Log.adds_append
    rw [List.append_nil] at puts news
    refine ⟨size,news ▸ lists.push v,by rw [puts,news]; exact first,?_⟩
    intro e added
    rw [adds,List.mem_append] at added
    rw [news,count_push]
    rcases added with old | latest
    · obtain ⟨inside,apart⟩ := outside e old
      exact ⟨Nat.le_succ_of_le inside,apart⟩
    · cases List.mem_singleton.mp latest
      refine ⟨Nat.le_refl _,?_⟩
      intro listed
      obtain ⟨f,put,same⟩ := List.mem_map.mp listed
      have inside := lists.index_le put
      rw [same] at inside
      exact Nat.not_succ_le_self _ inside
  | full full => exact recorded.skip rfl rfl rfl

theorem step [EquivBEq α] {c : Command α} (recorded : Recorded b s log) (steps : s.Steps c answer t) :
    Recorded b t (log ++ [(c,answer)]) := by
  cases steps with
  | put puts => exact recorded.put puts
  | add adds => exact recorded.add adds
  | look looks =>
    cases c with
    | put v => exact looks.elim
    | add v => exact looks.elim
    | find v => exact recorded.skip rfl rfl rfl
    | value i => exact recorded.skip rfl rfl rfl
    | next i => exact recorded.skip rfl rfl rfl
    | entries => exact recorded.skip rfl rfl rfl

end Recorded

-- The log of a run from the empty store tells of the store it ends in.
theorem recorded_run [EquivBEq α] [LawfulFingerprint α] (b : StorageBits) (cs : List (Command α)) :
    Recorded b ((empty b).run cs) ((empty b).trace cs) := by
  induction cs using List.reverseRecOn with
  | nil => exact recorded_empty b
  | append_singleton cs c ih =>
    rw [trace_append,run_append]
    exact ih.step (step_exact rfl)

-- A store of `b` bits with such a log holds one copy of each value put, under the index of the first. Values
-- added stand apart.
structure HashConses (b : StorageBits) (s : Store α) (log : Log α) : Prop where
  put_again : ∀ v i, firstEqual log.puts v = some i → s.step (.put v) = (.put i false,s)
  put_new : ∀ v, firstEqual log.puts v = none → s.count < b.capacity - 1 →
    ∃ t, s.step (.put v) = (.put (s.count + 1) true,t) ∧ t.entries = s.entries ++ [(s.count + 1,v)]
  put_full : ∀ v, firstEqual log.puts v = none → b.capacity - 1 ≤ s.count →
    ∃ e, s.step (.put v) = (.failed e,s) ∧ e.message = "Storage is full"
  add_new : ∀ v, s.count < b.capacity - 1 →
    ∃ t, s.step (.add v) = (.index (s.count + 1),t) ∧ t.entries = s.entries ++ [(s.count + 1,v)]
  add_full : ∀ v, b.capacity - 1 ≤ s.count →
    ∃ e, s.step (.add v) = (.failed e,s) ∧ e.message = "Storage is full"
  find_eq : ∀ v, s.step (.find v) = (.found (firstEqual log.puts v),s)
  added_apart : ∀ e ∈ log.adds, ∀ v, (s.step (.find v)).1 ≠ .found (some e.1) ∧
    ∀ isNew, (s.step (.put v)).1 ≠ .put e.1 isNew
  value_stays : ∀ more i v, s.value i = .ok v → (s.run more).value i = .ok v
  chains : ∀ c, c < b.chainCount → ∃ is, s.Follows (s.head c) is ∧ is.Pairwise (· < ·) ∧
    is = (log.news.filter fun e => s.chainOf e.2 == c).map Prod.fst

namespace Recorded

variable [LawfulFingerprint α]

theorem put_again (recorded : Recorded b s log) (known : firstEqual log.puts v = some i) :
    s.step (.put v) = (.put i false,s) := by
  have found := recorded.find_eq v
  rcases ran : s.step (.put v) with ⟨answer,t⟩
  cases step_exact ran with
  | put puts =>
    cases puts with
    | again looked =>
      rw [looked,known] at found
      cases found
      rfl
    | new absent => rw [absent,known] at found; cases found
    | full absent => rw [absent,known] at found; cases found
  | look looks => exact looks.elim

theorem put_new (recorded : Recorded b s log) (unknown : firstEqual log.puts v = none)
    (room : s.count < b.capacity - 1) :
    ∃ t, s.step (.put v) = (.put (s.count + 1) true,t) ∧ s.Appends v t := by
  have found := recorded.find_eq v
  rcases ran : s.step (.put v) with ⟨answer,t⟩
  cases step_exact ran with
  | put puts =>
    cases puts with
    | again looked => rw [looked,unknown] at found; cases found
    | new absent room' appends => exact ⟨t,rfl,appends⟩
    | full absent full => rw [recorded.size] at full; omega
  | look looks => exact looks.elim

theorem put_full (recorded : Recorded b s log) (unknown : firstEqual log.puts v = none)
    (full : b.capacity - 1 ≤ s.count) : s.step (.put v) = (.failed .full,s) := by
  have found := recorded.find_eq v
  rcases ran : s.step (.put v) with ⟨answer,t⟩
  cases step_exact ran with
  | put puts =>
    cases puts with
    | again looked => rw [looked,unknown] at found; cases found
    | new absent room => rw [recorded.size] at room; omega
    | full => rfl
  | look looks => exact looks.elim

omit [LawfulFingerprint α] in
theorem add_new (recorded : Recorded b s log) (room : s.count < b.capacity - 1) :
    s.step (.add v) = (.index (s.count + 1),s.push v) := by
  rcases ran : s.step (.add v) with ⟨answer,t⟩
  cases step_exact ran with
  | add adds =>
    cases adds with
    | new => rfl
    | full full => rw [recorded.size] at full; omega
  | look looks => exact looks.elim

omit [LawfulFingerprint α] in
theorem add_full (recorded : Recorded b s log) (full : b.capacity - 1 ≤ s.count) :
    s.step (.add v) = (.failed .full,s) := by
  rcases ran : s.step (.add v) with ⟨answer,t⟩
  cases step_exact ran with
  | add adds =>
    cases adds with
    | new room => rw [recorded.size] at room; omega
    | full => rfl
  | look looks => exact looks.elim

omit [LawfulFingerprint α] in
-- An index that was answered to an add is never that of a value put.
theorem added_ne (recorded : Recorded b s log) {e : Nat × α} (added : e ∈ log.adds) :
    firstEqual log.puts v ≠ some e.1 := by
  intro known
  rw [recorded.first,firstEqual,Option.map_eq_some_iff] at known
  obtain ⟨f,found,same⟩ := known
  exact (recorded.outside e added).2 (List.mem_map.mpr ⟨f,List.mem_of_find?_eq_some found,same⟩)

theorem added_apart (recorded : Recorded b s log) {e : Nat × α} (added : e ∈ log.adds) (isNew : Bool) :
    (s.step (.put v)).1 ≠ .put e.1 isNew := by
  rcases ran : s.step (.put v) with ⟨answer,t⟩
  cases step_exact ran with
  | put puts =>
    cases puts with
    | again looked =>
      intro same
      cases same
      rw [recorded.find_eq] at looked
      exact recorded.added_ne added looked
    | new =>
      intro same
      injection same with same
      have inside := (recorded.outside e added).1
      omega
    | full => nofun
  | look looks => exact looks.elim

end Recorded

-- Whatever is put, added and looked for, and whichever of it fails: values are put once each.
theorem run_hashConses [EquivBEq α] [LawfulFingerprint α] (b : StorageBits) (cs : List (Command α)) :
    HashConses b ((empty b).run cs) ((empty b).trace cs) := by
  have recorded := recorded_run b cs
  refine ⟨?put_again,?put_new,?put_full,?add_new,?add_full,?find_eq,?added_apart,?value_stays,?chains⟩
  case put_again => exact fun v i known => recorded.put_again known
  case put_new =>
    intro v unknown room
    obtain ⟨t,ran,appends⟩ := recorded.put_new unknown room
    exact ⟨t,ran,entries_push appends.values⟩
  case put_full => exact fun v unknown full => ⟨.full,recorded.put_full unknown full,rfl⟩
  case add_new => exact fun v room => ⟨_,recorded.add_new room,entries_push rfl⟩
  case add_full => exact fun v full => ⟨.full,recorded.add_full full,rfl⟩
  case find_eq => exact fun v => congrArg (fun i => (Answer.found i,_)) (recorded.find_eq v)
  case added_apart =>
    intro e added v
    refine ⟨?_,recorded.added_apart added⟩
    intro same
    injection same with same
    exact recorded.added_ne added ((recorded.find_eq v).symm.trans same)
  case value_stays => exact fun more i v held => value_run more held
  case chains =>
    intro c inside
    rw [←recorded.size] at inside
    exact ⟨_,recorded.lists.chained c inside,(recorded.lists.chained c inside).ascending,rfl⟩

-- Keys that all have the same fingerprint.
structure Crowded where
  key : Nat
deriving DecidableEq

instance : Fingerprint Crowded := ⟨fun _ => 7⟩

instance : LawfulFingerprint Crowded := ⟨fun _ _ _ => rfl⟩

def crowd : List (Command Crowded) :=
  [.put ⟨1⟩,.add ⟨2⟩,.find ⟨2⟩,.put ⟨2⟩,.put ⟨3⟩,.put ⟨2⟩,.find ⟨3⟩]

-- There is room for three. The added 2 is not found, a 2 is put beside it, and 3 is refused.
theorem run_hashConses_crowd :
    ((empty ⟨2,by decide⟩).trace crowd).map (·.2) =
      [.put 1 true,.index 2,.found none,.put 3 true,.failed .full,.put 3 false,.found none] ∧
    HashConses ⟨2,by decide⟩ ((empty ⟨2,by decide⟩).run crowd) ((empty ⟨2,by decide⟩).trace crowd) :=
  ⟨by decide +kernel,run_hashConses ⟨2,by decide⟩ crowd⟩

end BuchiToRabin.Store
