import TurnCodec.Proofs.Metadata
import TurnCodec.Response.Equality
/-! Contents compare as their images under a change of the metadata, if the values of the one do
with those of the other. -/

namespace TurnCodec

open Bearing

theorem beq_map_list {α β : Type} [BEq α] [BEq β] {f : α → β} {as bs : List α}
    (h : ∀ a ∈ as, ∀ b ∈ bs, (f a == f b) = (a == b)) : (as.map f == bs.map f) = (as == bs) := by
  induction as generalizing bs with
  | nil => cases bs <;> rfl
  | cons a as ih =>
    cases bs with
    | nil => rfl
    | cons b bs =>
      have hrest : (as.map f == bs.map f) = (as == bs) :=
        ih fun c hc d hd => h c (List.mem_cons_of_mem a hc) d (List.mem_cons_of_mem b hd)
      rw [List.map_cons, List.map_cons, List.cons_beq_cons, List.cons_beq_cons, hrest,
        h a List.mem_cons_self b List.mem_cons_self]

theorem beq_map_option {α β : Type} [BEq α] [BEq β] {f : α → β} {a b : Option α}
    (h : ∀ x ∈ a, ∀ y ∈ b, (f x == f y) = (x == y)) : (a.map f == b.map f) = (a == b) := by
  rcases a with _ | x <;> rcases b with _ | y
  · rfl
  · rfl
  · rfl
  · exact h x rfl y rfl

section
variable {E E' : Type} [BEq E] [BEq E'] {f : String → E → E'}

/-- The values of one list compare with those of another as their images do. -/
def Comparable (f : String → E → E') (es ds : List (String × E)) : Prop :=
  ∀ e ∈ es, ∀ d ∈ ds, (f e.1 e.2 == f d.1 d.2) = (e.2 == d.2)

theorem Comparable.mono {es ds es' ds' : List (String × E)} (h : Comparable f es ds) (he : es' ⊆ es) (hd : ds' ⊆ ds) :
    Comparable f es' ds' := fun e hes d hds => h e (he hes) d (hd hds)

section
variable {X : Type → Type} [Bearing X] [BEq (X E)] [BEq (X E')]
  (each : ∀ {x y : X E}, Comparable f (extras x) (extras y) → (map f x == map f y) = (x == y))
include each

theorem beq_map_contents {xs ys : List (X E)} (h : Comparable f (xs.flatMap extras) (ys.flatMap extras)) :
    (xs.map (map f) == ys.map (map f)) = (xs == ys) :=
  beq_map_list fun x hx y hy => each fun e he d hd =>
    h e (List.mem_flatMap.2 ⟨x, hx, he⟩) d (List.mem_flatMap.2 ⟨y, hy, hd⟩)

theorem beq_map_held {x y : Option (X E)} (h : Comparable f (x.toList.flatMap extras) (y.toList.flatMap extras)) :
    (x.map (map f) == y.map (map f)) = (x == y) :=
  beq_map_option fun a ha b hb => each fun e he d hd =>
    h e (List.mem_flatMap.2 ⟨a, Option.mem_toList.2 ha, he⟩) d (List.mem_flatMap.2 ⟨b, Option.mem_toList.2 hb, hd⟩)

end

theorem Extra.beq_map_both {x y : Extra E} (h : Comparable f (extras x) (extras y)) :
    (map f x == map f y) = (x == y) := by
  refine beq_map_list fun e he d hd => ?_
  change (e.1 == d.1 && f e.1 e.2 == f d.1 d.2) = (e.1 == d.1 && e.2 == d.2)
  rw [h e he d hd]

theorem Media.beq_map_both {m n : Media E} (h : Comparable f (extras m) (extras n)) :
    (map f m == map f n) = (m == n) :=
  -- metadata is compared last
  congrArg (_ && ·) (Extra.beq_map_both h)

theorem InputPart.beq_map_both {p q : InputPart E} (h : Comparable f (extras p) (extras q)) :
    (map f p == map f q) = (p == q) := by
  cases p <;> cases q
  case image.image m d n e => exact congrArg (· && d == e) (Media.beq_map_both h)
  case audio.audio m n => exact Media.beq_map_both h
  case video.video m n => exact Media.beq_map_both h
  case file.file m s n t => exact congrArg (· && s == t) (Media.beq_map_both h)
  all_goals rfl

theorem OutputPart.beq_map_both {p q : OutputPart E} (h : Comparable f (extras p) (extras q)) :
    (map f p == map f q) = (p == q) := by
  cases p <;> cases q
  case text.text s x t y => exact congrArg (s == t && ·) (Extra.beq_map_both h)
  case image.image m n => exact Media.beq_map_both h
  case audio.audio m n => exact Media.beq_map_both h
  case video.video m n => exact Media.beq_map_both h
  all_goals rfl

theorem Content.beq_map_both {c d : Content E} (h : Comparable f (extras c) (extras d)) :
    (map f c == map f d) = (c == d) := by
  cases c <;> cases d
  case input.input ps qs => exact beq_map_contents InputPart.beq_map_both h
  case output.output ps qs => exact beq_map_contents OutputPart.beq_map_both h
  all_goals rfl

theorem Message.beq_map_both {m n : Message E} (h : Comparable f (extras m) (extras n)) :
    (map f m == map f n) = (m == n) := by
  have content := Content.beq_map_both (h.mono (List.subset_append_left _ _) (List.subset_append_left _ _))
  have extra := Extra.beq_map_both (h.mono (List.subset_append_right _ _) (List.subset_append_right _ _))
  change (_ && _ && map f m.content == map f n.content && map f m.extra == map f n.extra) = _
  rw [content, extra]
  rfl

theorem SummaryFragment.beq_map_both {a b : SummaryFragment E} (h : Comparable f (extras a) (extras b)) :
    (map f a == map f b) = (a == b) :=
  congrArg (_ && ·) (Extra.beq_map_both h)

theorem Reasoning.beq_map_both {a b : Reasoning E} (h : Comparable f (extras a) (extras b)) :
    (map f a == map f b) = (a == b) := by
  have summary := beq_map_contents SummaryFragment.beq_map_both
    (h.mono (List.subset_append_left _ _) (List.subset_append_left _ _))
  have extra := Extra.beq_map_both (h.mono (List.subset_append_right _ _) (List.subset_append_right _ _))
  change (_ && _ && a.summary.map (map f) == b.summary.map (map f) && _ && map f a.extra == map f b.extra) = _
  rw [summary, extra]
  rfl

theorem ToolCall.beq_map_both {a b : ToolCall E} (h : Comparable f (extras a) (extras b)) :
    (map f a == map f b) = (a == b) :=
  congrArg (_ && ·) (Extra.beq_map_both h)

theorem McpResult.beq_map_both {a b : McpResult E} (h : Comparable f (extras a) (extras b)) :
    (map f a == map f b) = (a == b) :=
  congrArg (_ && ·) (Extra.beq_map_both h)

theorem ToolOutput.beq_map_both {a b : ToolOutput E} (h : Comparable f (extras a) (extras b)) :
    (map f a == map f b) = (a == b) := by
  cases a <;> cases b
  case mcp.mcp r s => exact McpResult.beq_map_both h
  all_goals rfl

theorem ToolCallOutput.beq_map_both {a b : ToolCallOutput E} (h : Comparable f (extras a) (extras b)) :
    (map f a == map f b) = (a == b) :=
  congrArg (_ && ·) (beq_map_held ToolOutput.beq_map_both h)

theorem Payload.beq_map_both {p q : Payload E} (h : Comparable f (extras p) (extras q)) :
    (map f p == map f q) = (p == q) := by
  cases p <;> cases q
  case message.message m n => exact Message.beq_map_both h
  case reasoning.reasoning a b => exact Reasoning.beq_map_both h
  case toolCall.toolCall a b => exact ToolCall.beq_map_both h
  case toolCallOutput.toolCallOutput a b => exact ToolCallOutput.beq_map_both h
  all_goals rfl

theorem Block.beq_map_both {a b : Block E} (h : Comparable f (extras a) (extras b)) :
    (map f a == map f b) = (a == b) :=
  congrArg (_ && ·) (beq_map_held Payload.beq_map_both h)

theorem Response.beq_map_both {r s : Response E} (h : Comparable f (extras r) (extras s)) :
    (map f r == map f s) = (r == s) :=
  congrArg (_ && ·) (beq_map_contents Block.beq_map_both h)

end

end TurnCodec
