import Mathlib.Data.List.Induction
import TurnCodec.Cli.Run
import TurnCodec.Proofs.Cli.Limit
import TurnCodec.Proofs.Outcome
/-! The grammar of the command line. Arguments are a command and flags in any order and number, and
the last flag of a kind counts. Whatever is refused is refused for its first fault: the command, then
the words, then a missing input, then the limit, then the file. -/

namespace TurnCodec.Cli

/-- A flag as it is given. Two of them take the next word as a value, whatever it looks like. -/
inductive Flag
  | input (path : String)
  | maxBytes (number : String)
  | verbose
deriving DecidableEq

namespace Flag

def words : Flag → List String
  | input path => ["--input", path]
  | maxBytes number => ["--max-bytes", number]
  | verbose => ["--verbose"]

def input? : Flag → Option String
  | input path => some path
  | _ => none

def maxBytes? : Flag → Option String
  | maxBytes number => some number
  | _ => none

end Flag

/-- Words that do not start with a flag, and what is wrong with the first of them: it lacks its
value, or no flag is called that. -/
inductive Stuck : List String → UsageFault → Prop
  | missingValue {word : String} (h : word ∈ ["--input", "--max-bytes"]) : Stuck [word] (.missingValue word)
  | unknownArgument {word : String} (h : word ∉ ["--input", "--max-bytes", "--verbose"]) (rest : List String) :
      Stuck (word :: rest) (.unknownArgument word)

def lastInput (flags : List Flag) : Option String := (flags.filterMap Flag.input?).getLast?

def lastMaxBytes (flags : List Flag) : Option String := (flags.filterMap Flag.maxBytes?).getLast?

namespace Flags

/-- One more flag is read. -/
def put (f : Flags) : Flag → Flags
  | .input path => { f with input := some path }
  | .maxBytes number => { f with maxBytes := some number }
  | .verbose => { f with verbose := true }

theorem read_words (f : Flags) (flag : Flag) (rest : List String) :
    f.read (flag.words ++ rest) = (f.put flag).read rest := by
  cases flag with
  | input path => simp [Flag.words, read, put]
  | maxBytes number => simp [Flag.words, read, put]
  | verbose => simp [Flag.words, read, put]

theorem read_flatMap (f : Flags) (flags : List Flag) (rest : List String) :
    f.read (flags.flatMap Flag.words ++ rest) = (flags.foldl put f).read rest := by
  induction flags generalizing f with
  | nil => rfl
  | cons flag flags ih => rw [List.flatMap_cons, List.append_assoc, read_words, ih, List.foldl_cons]

theorem read_stuck (f : Flags) {rest : List String} {fault : UsageFault} (h : Stuck rest fault) :
    f.read rest = .error fault := by
  cases h with
  | missingValue h =>
    simp only [List.mem_cons, List.not_mem_nil, or_false] at h
    rcases h with rfl | rfl <;> simp [read]
  | @unknownArgument word h rest =>
    simp only [List.mem_cons, List.not_mem_nil, or_false, not_or] at h
    obtain ⟨hinput, hmax, hverbose⟩ := h
    cases rest with
    | nil => rw [read.eq_5 f word hverbose, if_neg (by simp [hinput, hmax])]
    | cons next rest =>
      exact read.eq_6 f word _ (fun _ _ h => absurd h hinput) (fun _ _ h => absurd h hmax) hverbose nofun

end Flags

/-- The words are flags, and words after them that start no flag if there are any. -/
def Splits (words : List String) : Prop := ∃ (flags : List Flag) (rest : List String),
  words = flags.flatMap Flag.words ++ rest ∧ (rest = [] ∨ ∃ fault, Stuck rest fault)

theorem Splits.cons (flag : Flag) {words : List String} (h : Splits words) : Splits (flag.words ++ words) := by
  obtain ⟨flags, rest, rfl, hrest⟩ := h
  exact ⟨flag :: flags, rest, by rw [List.flatMap_cons, List.append_assoc], hrest⟩

theorem splits (words : List String) : Splits words := by
  fun_induction Flags.read {} words with
  | case1 => exact ⟨[], [], rfl, .inl rfl⟩
  | case2 _ path rest ih => exact ih.cons (.input path)
  | case3 _ number rest ih => exact ih.cons (.maxBytes number)
  | case4 _ rest ih => exact ih.cons .verbose
  | case5 _ word _ h => exact ⟨[], [word], rfl, .inr ⟨_, .missingValue (by simpa using h)⟩⟩
  | case6 _ word hverbose h =>
    refine ⟨[], [word], rfl, .inr ⟨_, .unknownArgument ?_ []⟩⟩
    have hverbose : word ≠ "--verbose" := hverbose
    simpa [hverbose] using h
  | case7 _ word tail hinput hmax hverbose htail =>
    -- a flag that takes a value has one here, as more words follow it
    obtain ⟨next, rest, rfl⟩ := List.exists_cons_of_ne_nil htail
    refine ⟨[], word :: next :: rest, rfl, .inr ⟨_, .unknownArgument ?_ _⟩⟩
    simp only [List.mem_cons, List.not_mem_nil, or_false, not_or]
    exact ⟨fun h => hinput _ _ h rfl, fun h => hmax _ _ h rfl, hverbose⟩

namespace Flags

theorem foldl_put (flags : List Flag) : flags.foldl put {} =
    { input := lastInput flags, maxBytes := lastMaxBytes flags, verbose := decide (.verbose ∈ flags) } := by
  induction flags using List.reverseRecOn with
  | nil => rfl
  | append_singleton flags flag ih =>
    rw [List.foldl_append, ih]
    cases flag <;> simp [put, lastInput, lastMaxBytes, Flag.input?, Flag.maxBytes?]

end Flags

def Command.word : Command → String
  | inspect => "inspect"
  | validate => "validate"

theorem Command.parse?_word (c : Command) : parse? c.word = some c := by
  cases c <;> rfl

theorem Command.parse?_eq_none {word : String} (h : ∀ c : Command, word ≠ c.word) : parse? word = none := by
  unfold parse?
  split
  · exact absurd rfl (h .inspect)
  · exact absurd rfl (h .validate)
  · rfl

/-- Why arguments are refused. Each reason supposes that there is none of those before it. -/
inductive Refused (isFile : String → Bool) : List String → UsageFault → Prop
  | noCommand : Refused isFile [] .noCommand
  | unknownCommand {word : String} (h : ∀ c : Command, word ≠ c.word) (words : List String) :
      Refused isFile (word :: words) (.unknownCommand word)
  | stuck (c : Command) (flags : List Flag) {rest : List String} {fault : UsageFault} (h : Stuck rest fault) :
      Refused isFile (c.word :: (flags.flatMap Flag.words ++ rest)) fault
  | noInput (c : Command) {flags : List Flag} (h : lastInput flags = none) :
      Refused isFile (c.word :: flags.flatMap Flag.words) .noInput
  | badLimit (c : Command) {flags : List Flag} {path s : String} {fault : UsageFault}
      (hinput : lastInput flags = some path) (hs : lastMaxBytes flags = some s) (hbad : BadLimit s fault) :
      Refused isFile (c.word :: flags.flatMap Flag.words) fault
  | notAFile (c : Command) {flags : List Flag} {path : String} {n : Nat} (hinput : lastInput flags = some path)
      (hlimit : IsLimit (lastMaxBytes flags) n) (hfile : isFile path = false) :
      Refused isFile (c.word :: flags.flatMap Flag.words) .notAFile

/-- The arguments spell the request, and its input is a file. -/
structure Spells (isFile : String → Bool) (args : List String) (flags : List Flag) (q : Request) : Prop where
  args : args = q.command.word :: flags.flatMap Flag.words
  input : lastInput flags = some q.input
  limit : IsLimit (lastMaxBytes flags) q.maxBytes
  verbose : q.verbose = true ↔ Flag.verbose ∈ flags
  file : isFile q.input = true

theorem Request.parse_words (isFile : String → Bool) (c : Command) (flags : List Flag) (rest : List String) :
    parse isFile (c.word :: (flags.flatMap Flag.words ++ rest)) =
      (flags.foldl Flags.put {}).read rest >>= ofFlags isFile c := by
  rw [parse, ← Flags.read_flatMap, Command.parse?_word]

/-- Words that are flags up to the end are read as these flags, the last of each. -/
theorem Request.parse_flags (isFile : String → Bool) (c : Command) (flags : List Flag) :
    parse isFile (c.word :: flags.flatMap Flag.words) = ofFlags isFile c
      { input := lastInput flags, maxBytes := lastMaxBytes flags, verbose := decide (.verbose ∈ flags) } := by
  rw [← List.append_nil (flags.flatMap Flag.words), parse_words, Flags.foldl_put]
  rfl

theorem Spells.parse_eq {isFile : String → Bool} {args : List String} {flags : List Flag} {q : Request}
    (h : Spells isFile args flags q) : Request.parse isFile args = .ok q := by
  obtain ⟨command, input, maxBytes, verbose⟩ := q
  obtain ⟨rfl, hinput, hlimit, hverbose, hfile⟩ := h
  rw [Request.parse_flags, hinput]
  simp only [Request.ofFlags, hlimit.limit_eq, ok_bind, hfile, if_true]
  have hsame : decide (Flag.verbose ∈ flags) = verbose := by
    rw [Bool.eq_iff_iff, decide_eq_true_iff, hverbose]
  rw [hsame]
  rfl

theorem Refused.parse_eq {isFile : String → Bool} {args : List String} {fault : UsageFault}
    (h : Refused isFile args fault) : Request.parse isFile args = .error fault := by
  cases h with
  | noCommand => rfl
  | unknownCommand h words => rw [Request.parse, Command.parse?_eq_none h]
  | stuck c flags h => rw [Request.parse_words, Flags.read_stuck _ h, error_bind]
  | noInput c h =>
    rw [Request.parse_flags, h]
    rfl
  | badLimit c hinput hs hbad =>
    rw [Request.parse_flags, hinput, hs]
    simp only [Request.ofFlags, hbad.limit_eq, error_bind]
  | notAFile c hinput hlimit hfile =>
    rw [Request.parse_flags, hinput]
    simp only [Request.ofFlags, hlimit.limit_eq, ok_bind, hfile, Bool.false_eq_true, if_false]

/-- All arguments are either the one or the other. -/
theorem spells_or_refused (isFile : String → Bool) (args : List String) :
    (∃ flags q, Spells isFile args flags q) ∨ ∃ fault, Refused isFile args fault := by
  rcases args with _ | ⟨word, words⟩
  · exact .inr ⟨_, .noCommand⟩
  by_cases hword : ∃ c : Command, word = c.word
  swap
  · exact .inr ⟨_, .unknownCommand (by simpa using hword) words⟩
  obtain ⟨c, rfl⟩ := hword
  obtain ⟨flags, rest, rfl, rfl | ⟨fault, hstuck⟩⟩ := splits words
  swap
  · exact .inr ⟨_, .stuck c flags hstuck⟩
  rw [List.append_nil]
  rcases hinput : lastInput flags with _ | path
  · exact .inr ⟨_, .noInput c hinput⟩
  rcases exists_limit (lastMaxBytes flags) with ⟨n, hlimit⟩ | ⟨s, fault, hs, hbad⟩
  swap
  · exact .inr ⟨_, .badLimit c hinput hs hbad⟩
  rcases hfile : isFile path with _ | _
  · exact .inr ⟨_, .notAFile c hinput hlimit hfile⟩
  · exact .inl ⟨flags, ⟨c, path, n, decide (.verbose ∈ flags)⟩, rfl, hinput, hlimit, decide_eq_true_iff, hfile⟩

/-- Arguments are a request exactly when they spell one and its input is a file; the limit that they
spell is then the limit of the codec, to the byte. All others are refused, and for what. -/
theorem Request.parse_grammar (isFile : String → Bool) (args : List String) :
    (∀ q, parse isFile args = .ok q ↔
      ∃ flags, Spells isFile args flags q ∧ q.options.maxPayloadBytes.toNat = q.maxBytes) ∧
    ∀ fault, parse isFile args = .error fault ↔ Refused isFile args fault := by
  constructor
  · intro q
    constructor
    · intro hq
      rcases spells_or_refused isFile args with ⟨flags, p, hp⟩ | ⟨fault, hfault⟩
      · obtain rfl : p = q := Except.ok.inj (hp.parse_eq.symm.trans hq)
        have hlimit : p.maxBytes < 0x10000000000000000 := Nat.lt_of_le_of_lt hp.limit.le (by decide)
        exact ⟨flags, hp, UInt64.toNat_ofNat_of_lt' hlimit⟩
      · cases hfault.parse_eq.symm.trans hq
    · rintro ⟨flags, hq, -⟩
      exact hq.parse_eq
  · intro fault
    constructor
    · intro hfault
      rcases spells_or_refused isFile args with ⟨flags, q, hq⟩ | ⟨first, hfirst⟩
      · cases hq.parse_eq.symm.trans hfault
      · obtain rfl : first = fault := Except.error.inj (hfirst.parse_eq.symm.trans hfault)
        exact hfirst
    · exact Refused.parse_eq

/-- What looks like a flag may be a path, and a limit that was taken back may be no number. -/
example : Request.parse (· == "--verbose")
    ["inspect", "--max-bytes", "1k", "--input", "turn.agr", "--max-bytes", "007", "--input", "--verbose"] =
    .ok { command := .inspect, input := "--verbose", maxBytes := 7, verbose := false } := by
  rfl

end TurnCodec.Cli
