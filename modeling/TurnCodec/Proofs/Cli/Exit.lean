import TurnCodec.Proofs.Cli.Grammar
import TurnCodec.Cli.Run
import TurnCodec.Proofs.Codec
import TurnCodec.Proofs.Wire.Plain
/-! What a run tells by its exit code. Each code is given for one reason, so that an operator can go
by it: what validates can be inspected, and the tree that is seen then settles whether it validates.
A file that opens and then cannot be read is the one thing that no code is given for, as the run is
over before there is one. -/

namespace TurnCodec.Cli

open Bearing TurnCodec.Tree

/-- The request that the arguments make, where the files are these. -/
def requested (files : String → File) (args : List String) : Except UsageFault Request :=
  Request.parse (fun path => (files path).isRegular) args

namespace Request

/-- The call of the codec that the command stands for fails. -/
def Refuses (q : Request) (payload : List UInt8) : Prop :=
  match q.command with
  | .inspect => ∃ e, q.codec.inspect payload = .error e
  | .validate => ∃ e, (q.codec.decode payload).value = .error e

/-- The tree that is printed for a payload, if any is. -/
def seen (q : Request) (payload : List UInt8) : Option Tree :=
  match q.command with
  | .inspect => (q.codec.inspect payload).toOption
  | .validate => none

variable {q : Request} {payload : List UInt8}

theorem run_closed : (q.run .closed).value = (.ok 3, none) := rfl

theorem run_broken (why : String) :
    (q.run (.broken why)).value = (.error ("basic_filebuf::underflow error reading the file: " ++ why), none) := rfl

/-- A call that fails ends in 4, and one that does not in 0. -/
theorem run_regular : (q.Refuses payload ∧ (q.run (.regular payload)).value = (.ok 4, none)) ∨
    (¬ q.Refuses payload ∧ (q.run (.regular payload)).value = (.ok 0, q.seen payload)) := by
  cases hcommand : q.command with
  | inspect =>
    cases hw : q.codec.inspect payload with
    | error e =>
      left
      simp [Refuses, run, File.read, tellReport, hcommand, hw]
    | ok w =>
      right
      simp [Refuses, seen, run, File.read, hcommand, hw, Except.toOption]
  | validate =>
    cases hr : (q.codec.decode payload).value with
    | error e =>
      left
      simp [Refuses, run, File.read, hcommand, hr]
    | ok r =>
      right
      simp [Refuses, seen, run, File.read, hcommand, hr]

theorem run_refused (h : q.Refuses payload) : (q.run (.regular payload)).value = (.ok 4, none) :=
  run_regular.elim And.right fun hdone => absurd h hdone.1

theorem run_done (h : ¬ q.Refuses payload) : (q.run (.regular payload)).value = (.ok 0, q.seen payload) :=
  run_regular.elim (fun hrefused => absurd hrefused.1 h) And.right

theorem not_refuses_inspect (h : q.command = .inspect) :
    ¬ q.Refuses payload ↔ ∃ w, q.codec.inspect payload = .ok w := by
  simp only [Refuses, h]
  cases q.codec.inspect payload <;> simp

theorem not_refuses_validate (h : q.command = .validate) :
    ¬ q.Refuses payload ↔ ∃ r, (q.codec.decode payload).value = .ok r := by
  simp only [Refuses, h]
  cases (q.codec.decode payload).value <;> simp

end Request

/-- What a run exits with, or the exception that ends it, and why. -/
inductive Exits (files : String → File) (args : List String) : Except String UInt8 → Prop
  | usage {fault : UsageFault} (h : requested files args = .error fault) : Exits files args (.ok 2)
  | closed {q : Request} (hq : requested files args = .ok q) (hfile : files q.input = .closed) :
      Exits files args (.ok 3)
  | broken {q : Request} {why : String} (hq : requested files args = .ok q) (hfile : files q.input = .broken why) :
      Exits files args (.error ("basic_filebuf::underflow error reading the file: " ++ why))
  | refused {q : Request} {payload : List UInt8} (hq : requested files args = .ok q)
      (hfile : files q.input = .regular payload) (h : q.Refuses payload) : Exits files args (.ok 4)
  | done {q : Request} {payload : List UInt8} (hq : requested files args = .ok q)
      (hfile : files q.input = .regular payload) (h : ¬ q.Refuses payload) : Exits files args (.ok 0)

section
variable {files : String → File} {args : List String} {q : Request}

/-- Only a regular file is an input. -/
theorem isRegular_of_requested (hq : requested files args = .ok q) : (files q.input).isRegular = true := by
  rcases spells_or_refused (fun path => (files path).isRegular) args with ⟨flags, q', h⟩ | ⟨fault, h⟩
  · obtain rfl := Except.ok.inj (h.parse_eq.symm.trans hq)
    exact h.file
  · cases h.parse_eq.symm.trans hq

theorem run_exit_usage {fault : UsageFault} (h : requested files args = .error fault) :
    (run files args).exit = .ok 2 := by
  unfold requested at h
  rw [run, h]

theorem run_requested (hq : requested files args = .ok q) :
    ((run files args).exit, (run files args).printed) = (q.run (files q.input)).value := by
  unfold requested at hq
  rw [run, hq]

theorem Exits.exit_eq {code : Except String UInt8} (h : Exits files args code) : (run files args).exit = code := by
  cases h with
  | usage h => exact run_exit_usage h
  | closed hq hfile => exact congrArg Prod.fst ((run_requested hq).trans (hfile ▸ Request.run_closed))
  | broken hq hfile => exact congrArg Prod.fst ((run_requested hq).trans (hfile ▸ Request.run_broken _))
  | refused hq hfile h => exact congrArg Prod.fst ((run_requested hq).trans (hfile ▸ Request.run_refused h))
  | done hq hfile h => exact congrArg Prod.fst ((run_requested hq).trans (hfile ▸ Request.run_done h))

theorem exists_exits (files : String → File) (args : List String) : ∃ code, Exits files args code := by
  rcases hq : requested files args with fault | q
  · exact ⟨_, .usage hq⟩
  cases hfile : files q.input with
  | absent => cases (congrArg File.isRegular hfile).symm.trans (isRegular_of_requested hq)
  | closed => exact ⟨_, .closed hq hfile⟩
  | broken why => exact ⟨_, .broken hq hfile⟩
  | regular payload =>
    by_cases h : q.Refuses payload
    · exact ⟨_, .refused hq hfile h⟩
    · exact ⟨_, .done hq hfile h⟩

theorem exit_eq_iff {code : Except String UInt8} : (run files args).exit = code ↔ Exits files args code := by
  constructor
  · rintro rfl
    obtain ⟨code, h⟩ := exists_exits files args
    rwa [h.exit_eq]
  · exact Exits.exit_eq

theorem exit_eq_zero (hq : requested files args = .ok q) : (run files args).exit = .ok 0 ↔
    ∃ payload, files q.input = .regular payload ∧ ¬ q.Refuses payload := by
  rw [exit_eq_iff]
  constructor
  · intro h
    cases h with
    | done hp hfile h =>
      obtain rfl := Except.ok.inj (hp.symm.trans hq)
      exact ⟨_, hfile, h⟩
  · rintro ⟨payload, hfile, h⟩
    exact .done hq hfile h

theorem exit_validate (hq : requested files args = .ok q) (hcommand : q.command = .validate) :
    (run files args).exit = .ok 0 ↔
      ∃ payload, files q.input = .regular payload ∧ ∃ r, (q.codec.decode payload).value = .ok r := by
  simp only [exit_eq_zero hq, Request.not_refuses_validate hcommand]

theorem exit_inspect (hq : requested files args = .ok q) (hcommand : q.command = .inspect) {w : Tree} :
    (run files args).exit = .ok 0 ∧ (run files args).printed = some w ↔
      ∃ payload, files q.input = .regular payload ∧ q.codec.inspect payload = .ok w := by
  have hprinted {payload : List UInt8} (hfile : files q.input = .regular payload) (h : ¬ q.Refuses payload) :
      (run files args).printed = q.seen payload :=
    congrArg Prod.snd ((run_requested hq).trans (hfile ▸ Request.run_done h))
  rw [exit_eq_zero hq]
  constructor
  · rintro ⟨⟨payload, hfile, h⟩, hw⟩
    obtain ⟨u, hu⟩ := (Request.not_refuses_inspect hcommand).1 h
    rw [hprinted hfile h] at hw
    simp only [Request.seen, hcommand, hu, Except.toOption, Option.some.injEq] at hw
    exact ⟨payload, hfile, hw ▸ hu⟩
  · rintro ⟨payload, hfile, hw⟩
    have h : ¬ q.Refuses payload := (Request.not_refuses_inspect hcommand).2 ⟨w, hw⟩
    refine ⟨⟨payload, hfile, h⟩, ?_⟩
    simp only [hprinted hfile h, Request.seen, hcommand, hw, Except.toOption]

end

/-- A request to validate and one to inspect, of the same file under the same limit. -/
structure Paired (q q' : Request) : Prop where
  validate : q.command = .validate
  inspect : q'.command = .inspect
  input : q'.input = q.input
  maxBytes : q'.maxBytes = q.maxBytes

theorem Paired.codec_eq {q q' : Request} (h : Paired q q') : q'.codec = q.codec := by
  rw [Request.codec, Request.codec, Request.options, Request.options, h.maxBytes]

/-- What validates is what inspection shows as the tree of a valid response with plain values. The
types that there are do not matter, as none is registered. -/
theorem exit_paired {F : TypeFamily} {files : String → File} {args args' : List String} {q q' : Request}
    (hq : requested files args = .ok q) (hq' : requested files args' = .ok q') (h : Paired q q') :
    (run files args).exit = .ok 0 ↔ ∃ w, ((run files args').exit = .ok 0 ∧ (run files args').printed = some w) ∧
      ∃ r : Response (Extension F), Response.ofWire ∅ w = .ok r ∧ r.validate = .ok () := by
  simp only [exit_validate hq h.validate, exit_inspect hq' h.inspect, h.input, h.codec_eq, Codec.decode_eq_ok]
  constructor
  · rintro ⟨payload, hfile, r, w, hw, hr⟩
    exact ⟨w, ⟨payload, hfile, hw⟩, Response.exists_valid_empty_congr.1 ⟨r, hr⟩⟩
  · rintro ⟨w, ⟨payload, hfile, hw⟩, hvalid⟩
    obtain ⟨r, hr⟩ := Response.exists_valid_empty_congr.1 hvalid
    exact ⟨payload, hfile, r, w, hw, hr⟩

/-- An exit code is true, and a run is without one exactly when its file opens and cannot be read.
What validates can be inspected; what is seen on inspection validates exactly when it reads as a
valid response where no extension type is registered, whatever types there are, so that all its
values are plain. -/
theorem run_exit (F : TypeFamily) (files : String → File) :
    (∀ args code, (run files args).exit = code ↔ Exits files args code) ∧
    (∀ args args' q q', requested files args = .ok q → requested files args' = .ok q' → Paired q q' →
      ((run files args).exit = .ok 0 → (run files args').exit = .ok 0) ∧
      ((run files args).exit = .ok 0 ↔ ∃ w, ((run files args').exit = .ok 0 ∧ (run files args').printed = some w) ∧
        ∃ r : Response (Extension F), Response.ofWire ∅ w = .ok r ∧ r.validate = .ok ())) ∧
    ∀ w, ((∃ r : Response (Extension F), Response.ofWire ∅ w = .ok r) ↔
        IsObject (Response.Shape Extension.IsPlain) w) ∧
      ∀ r : Response (Extension F), Response.ofWire ∅ w = .ok r → ∀ e ∈ extras r, e.2.isPlain = true := by
  refine ⟨fun args code => exit_eq_iff, fun args args' q q' hq hq' h => ⟨fun hdone => ?_, exit_paired hq hq' h⟩,
    fun w => ⟨Response.exists_ofWire_empty, fun r hr => Response.plain_of_ofWire_empty hr⟩⟩
  obtain ⟨w, ⟨hexit, -⟩, -⟩ := (exit_paired (F := F) hq hq' h).1 hdone
  exact hexit

/-- The wire tree of a message with a plain value. -/
def note : Tree :=
  .object [
    ("blocks", .array [.object [
      ("message", .object [
        ("extra", .object [("trace", .object [("p", .null), ("t", .text "json")])]),
        ("input_text", .text "hi"),
        ("role", .text "user")]),
      ("type", .text "message")]]),
    ("id", .text "note")]

/-- A payload with a plain value, and one with a typed value besides. -/
def shelf : String → File
  | "note.agr" => .regular (Envelope.pack note.toCbor)
  | "greeting.agr" => .regular (Envelope.pack Tree.greeting.toCbor)
  | _ => .absent

theorem run_exit_shelf :
    (run shelf ["validate", "--input", "note.agr"]).exit = .ok 0 ∧
    (run shelf ["inspect", "--input", "note.agr"]).exit = .ok 0 ∧
    (run shelf ["inspect", "--input", "greeting.agr"]).printed = some Tree.greeting ∧
    (run shelf ["validate", "--input", "greeting.agr"]).exit ≠ .ok 0 := by
  obtain ⟨-, hpaired, -⟩ := run_exit .truth shelf
  have hnote : (run shelf ["validate", "--input", "note.agr"]).exit = .ok 0 := by decide +kernel
  obtain ⟨hagree, -⟩ := hpaired ["validate", "--input", "note.agr"] ["inspect", "--input", "note.agr"] _ _ rfl rfl
    ⟨rfl, rfl, rfl, rfl⟩
  have hq : requested shelf ["inspect", "--input", "greeting.agr"] =
      .ok { command := .inspect, input := "greeting.agr", maxBytes := 67108864, verbose := false } := rfl
  obtain ⟨-, hvalid⟩ := hpaired ["validate", "--input", "greeting.agr"] ["inspect", "--input", "greeting.agr"] _ _
    rfl hq ⟨rfl, rfl, rfl, rfl⟩
  have hseen : (run shelf ["inspect", "--input", "greeting.agr"]).printed = some Tree.greeting := by
    have hw : Response.greeting.toWire .truth = .ok Tree.greeting := rfl
    have hpack : Envelope.unpack {} (Envelope.pack Tree.greeting.toCbor) = .ok Tree.greeting :=
      Codec.inspect_pack (D := { registry := .truth }) hw Tree.greeting_isBody
        (by decide +kernel) (by decide)
    exact ((exit_inspect hq rfl).2 ⟨_, rfl, hpack⟩).2
  refine ⟨hnote, hagree hnote, hseen, fun h => ?_⟩
  obtain ⟨w, ⟨-, hw⟩, r, hr, -⟩ := hvalid.1 h
  obtain rfl : Tree.greeting = w := Option.some.inj (hseen.symm.trans hw)
  cases hr

/-- A file that opens, as the memory of a process does, and whose first byte cannot be read. -/
def torn : String → File
  | "torn.agr" => .broken "Input/output error"
  | _ => .absent

/-- A file that cannot be read does not always end a run in 3. -/
theorem run_exit_torn : ¬ ∀ (files : String → File) (args : List String) (q : Request),
    requested files args = .ok q → (∀ payload, files q.input ≠ .regular payload) →
      (run files args).exit = .ok 3 := by
  intro h
  have hexit : (run torn ["inspect", "--input", "torn.agr"]).exit = .ok 3 :=
    h torn ["inspect", "--input", "torn.agr"] _ rfl (fun _ hfile => File.noConfusion hfile)
  cases hexit

end TurnCodec.Cli
