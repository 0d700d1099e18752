import TurnCodec.Proofs.Ascending
import TurnCodec.Proofs.Outcome
import TurnCodec.Response.Traversal
/-! The metadata of content: its values in document order, changing them in place,
and what a run over them comes to. Every kind of content obeys the same laws, so
what is said of a whole response is said of its list of values. -/

namespace TurnCodec

/-- Runs `f` on values under their keys, in order, for its failures alone. -/
def check {ε E E' : Type} (f : String → E → Except ε E') (es : List (String × E)) : Except ε Unit :=
  es.forM fun e => (fun _ => ()) <$> f e.1 e.2

/-- What `f` gives, or a default where it fails. -/
def valueOf {ε E E' : Type} [Inhabited E'] (f : String → E → Except ε E') (key : String) (v : E) : E' :=
  match f key v with
  | .ok w => w
  | .error _ => default

/-- Content with metadata. To visit it is to check its values in order and then to
change each of them. -/
class Bearing (X : Type → Type) where
  extras {E : Type} : X E → List (String × E)
  map {E E' : Type} : (String → E → E') → X E → X E'
  visit {ε E E' : Type} : (String → E → Except ε E') → X E → Except ε (X E')
  extras_map {E E' : Type} (f : String → E → E') (x : X E) :
    extras (map f x) = (extras x).map fun e => (e.1, f e.1 e.2)
  map_twice {E E' E'' : Type} (f : String → E → E') (g : String → E' → E'') (x : X E) :
    map g (map f x) = map (fun k v => g k (f k v)) x
  map_self {E : Type} (x : X E) : map (fun _ v => v) x = x
  map_agree {E E' : Type} {f g : String → E → E'} {x : X E}
    (h : ∀ e ∈ extras x, f e.1 e.2 = g e.1 e.2) : map f x = map g x
  visit_eq {ε E E' : Type} [Inhabited E'] (f : String → E → Except ε E') (x : X E) :
    visit f x = (fun _ => map (valueOf f) x) <$> check f (extras x)

open Bearing

section
variable {ε E E' : Type} {f : String → E → Except ε E'}

@[simp] theorem check_nil : check f [] = .ok () := rfl

theorem check_cons (e : String × E) (es : List (String × E)) :
    check f (e :: es) = f e.1 e.2 >>= fun _ => check f es := by
  simp only [check, List.forM_eq_forM, List.forM_cons]
  cases f e.1 e.2 <;> rfl

theorem check_append (as bs : List (String × E)) :
    check f (as ++ bs) = check f as >>= fun _ => check f bs := by
  simp only [check, List.forM_eq_forM, List.forM_append]

theorem check_eq_ok {es : List (String × E)} :
    check f es = .ok () ↔ ∀ e ∈ es, ∃ w, f e.1 e.2 = .ok w := by
  induction es with
  | nil => simp
  | cons e es ih =>
    rw [check_cons, bind_eq_ok, ih]
    simp

/-- A check fails as its function does on the first value that it fails on. -/
theorem check_eq_error {es : List (String × E)} {m : ε} : check f es = .error m ↔
    ∃ before e after, es = before ++ e :: after ∧ (∀ d ∈ before, ∃ w, f d.1 d.2 = .ok w) ∧ f e.1 e.2 = .error m := by
  constructor
  · intro h
    induction es with
    | nil => cases h
    | cons e es ih =>
      rw [check_cons] at h
      cases he : f e.1 e.2 with
      | error m' =>
        rw [he] at h
        exact ⟨[], e, es, rfl, by simp, by rw [he, ← Except.error.inj h]⟩
      | ok w =>
        rw [he, ok_bind] at h
        obtain ⟨before, d, after, rfl, hbefore, hd⟩ := ih h
        exact ⟨e :: before, d, after, rfl, List.forall_mem_cons.2 ⟨⟨w, he⟩, hbefore⟩, hd⟩
  · rintro ⟨before, e, after, rfl, hbefore, he⟩
    rw [check_append, check_eq_ok.2 hbefore, ok_bind, check_cons, he]
    rfl

theorem valueOf_eq [Inhabited E'] {k : String} {v : E} {w : E'} (h : f k v = .ok w) : valueOf f k v = w := by
  simp only [valueOf, h]

/-- Two runs one after the other are one check of both and then both results. -/
theorem map_check_bind {α β γ : Type} {a b : List (String × E)} {x : α} {y : β} (h : α → β → γ) :
    (do let x ← (fun _ => x) <$> check f a
        let y ← (fun _ => y) <$> check f b
        return h x y) = (fun _ => h x y) <$> check f (a ++ b) := by
  rw [check_append]
  cases check f a with
  | error e => rfl
  | ok _ => cases check f b <;> rfl

theorem mapM_check {α β : Type} {values : α → List (String × E)} {g : α → Except ε β} {h : α → β}
    (hg : ∀ x, g x = (fun _ => h x) <$> check f (values x)) (xs : List α) :
    xs.mapM g = (fun _ => xs.map h) <$> check f (xs.flatMap values) := by
  induction xs with
  | nil => rfl
  | cons x xs ih =>
    rw [List.mapM_cons, ih, hg, List.flatMap_cons]
    exact map_check_bind fun y ys => y :: ys

end

instance : Bearing Dict where
  extras x := x.entries
  map := Dict.map
  visit f x := x.traverse f
  extras_map f x := rfl
  map_twice f g x := Dict.ext (by simp [Dict.map])
  map_self x := Dict.ext (by simp [Dict.map])
  map_agree h := Dict.ext (List.map_congr_left fun e he => by rw [h e he])
  visit_eq f x := by
    have each (e : String × _) : (do return (e.1, ← f e.1 e.2)) =
        (fun _ => (e.1, valueOf f e.1 e.2)) <$> check f [e] := by
      rw [check_cons]
      cases h : f e.1 e.2 with
      | error _ => rfl
      | ok w => simp [valueOf_eq h]
    rw [Dict.traverse, mapM_check each, List.flatMap_singleton']
    cases check f x.entries with
    | error _ => rfl
    | ok _ => exact congrArg Except.ok (Dict.ofList_entries (x.map (valueOf f)))

instance : Bearing Media where
  extras m := extras m.extra
  map f m := { url := m.url, base64Data := m.base64Data, mimeType := m.mimeType, extra := map f m.extra }
  visit f m := m.traverse f
  extras_map f m := extras_map f m.extra
  map_twice f g m := by simp [map_twice]
  map_self m := by simp [map_self]
  map_agree h := by simp [map_agree h]
  visit_eq f m := by
    rw [Media.traverse, show m.extra.traverse f = _ from visit_eq f m.extra]
    cases check f (extras m.extra) <;> rfl

section
variable {X : Type → Type} [Bearing X] {E E' E'' : Type}

theorem extras_map_list (f : String → E → E') (xs : List (X E)) :
    (xs.map (map f)).flatMap extras = (xs.flatMap extras).map fun e => (e.1, f e.1 e.2) := by
  simp [List.flatMap_map, List.map_flatMap, extras_map]

theorem map_twice_list (f : String → E → E') (g : String → E' → E'') (xs : List (X E)) :
    (xs.map (map f)).map (map g) = xs.map (map fun k v => g k (f k v)) := by
  simp [map_twice]

theorem map_self_list (xs : List (X E)) : xs.map (map fun _ v => v) = xs :=
  List.map_id'' map_self xs

theorem map_agree_list {f g : String → E → E'} {l : List (X E)}
    (h : ∀ e ∈ l.flatMap extras, f e.1 e.2 = g e.1 e.2) : l.map (map f) = l.map (map g) :=
  List.map_congr_left fun x hx => map_agree fun e he => h e (List.mem_flatMap.2 ⟨x, hx, he⟩)

end

instance : Bearing InputPart where
  extras
    | .text _ => []
    | .image m _ | .audio m | .video m | .file m _ => extras m
  map f
    | .text s => .text s
    | .image m d => .image (map f m) d
    | .audio m => .audio (map f m)
    | .video m => .video (map f m)
    | .file m n => .file (map f m) n
  visit f p := p.traverse f
  extras_map f p := by cases p <;> simp [extras_map]
  map_twice f g p := by cases p <;> simp [map_twice]
  map_self p := by cases p <;> simp [map_self]
  map_agree {_ _ f g p} h := by
    cases p with
    | text s => rfl
    | image m d | audio m | video m | file m n => simp [map_agree (f := f) (g := g) (x := m) h]
  visit_eq f p := by
    have media (m : Media _) : m.traverse f = _ := visit_eq f m
    cases p with
    | text s => rfl
    | image m d | audio m | video m | file m n =>
      rw [InputPart.traverse, media]
      cases check f (extras m) <;> rfl

instance : Bearing OutputPart where
  extras
    | .text _ x => extras x
    | .image m | .audio m | .video m => extras m
  map f
    | .text s x => .text s (map f x)
    | .image m => .image (map f m)
    | .audio m => .audio (map f m)
    | .video m => .video (map f m)
  visit f p := p.traverse f
  extras_map f p := by cases p <;> simp [extras_map]
  map_twice f g p := by cases p <;> simp [map_twice]
  map_self p := by cases p <;> simp [map_self]
  map_agree {_ _ f g p} h := by
    cases p with
    | text s x => simp [map_agree (f := f) (g := g) (x := x) h]
    | image m | audio m | video m => simp [map_agree (f := f) (g := g) (x := m) h]
  visit_eq f p := by
    cases p with
    | text s x =>
      rw [OutputPart.traverse, show x.traverse f = _ from visit_eq f x]
      cases check f (extras x) <;> rfl
    | image m | audio m | video m =>
      rw [OutputPart.traverse, show m.traverse f = _ from visit_eq f m]
      cases check f (extras m) <;> rfl

instance : Bearing Content where
  extras
    | .text _ => []
    | .input ps => ps.flatMap extras
    | .output ps => ps.flatMap extras
  map f
    | .text s => .text s
    | .input ps => .input (ps.map (map f))
    | .output ps => .output (ps.map (map f))
  visit f c := c.traverse f
  extras_map f c := by
    cases c with
    | text s => rfl
    | input ps | output ps => exact extras_map_list f ps
  map_twice f g c := by
    cases c with
    | text s => rfl
    | input ps | output ps => simp only [map_twice_list]
  map_self c := by
    cases c with
    | text s => rfl
    | input ps | output ps => simp only [map_self_list]
  map_agree {_ _ f g c} h := by
    cases c with
    | text s => rfl
    | input ps | output ps => simp only [map_agree_list (f := f) (g := g) (l := ps) h]
  visit_eq f c := by
    cases c with
    | text s => rfl
    | input ps | output ps =>
      rw [Content.traverse, show ps.mapM (fun p => p.traverse f) = _ from mapM_check (visit_eq f) ps]
      cases check f (ps.flatMap extras) <;> rfl

instance : Bearing Message where
  extras m := extras m.content ++ extras m.extra
  map f m := { index := m.index, role := m.role, content := map f m.content, extra := map f m.extra }
  visit f m := m.traverse f
  extras_map f m := by simp [extras_map]
  map_twice f g m := by simp [map_twice]
  map_self m := by simp [map_self]
  map_agree {_ _ f g m} h := by
    rw [map_agree fun e he => h e (List.mem_append_left _ he), map_agree fun e he => h e (List.mem_append_right _ he)]
  visit_eq f m := by
    rw [Message.traverse, show m.content.traverse f = _ from visit_eq f m.content,
      show m.extra.traverse f = _ from visit_eq f m.extra]
    exact map_check_bind fun content extra => (⟨m.index, m.role, content, extra⟩ : Message _)

instance : Bearing SummaryFragment where
  extras s := extras s.extra
  map f s := { text := s.text, extra := map f s.extra }
  visit f s := s.traverse f
  extras_map f s := extras_map f s.extra
  map_twice f g s := by simp [map_twice]
  map_self s := by simp [map_self]
  map_agree h := by simp [map_agree h]
  visit_eq f s := by
    rw [SummaryFragment.traverse, show s.extra.traverse f = _ from visit_eq f s.extra]
    cases check f (extras s.extra) <;> rfl

instance : Bearing Reasoning where
  extras r := r.summary.flatMap extras ++ extras r.extra
  map f r :=
    { index := r.index, summaryIndex := r.summaryIndex, summary := r.summary.map (map f),
      encryptedContent := r.encryptedContent, extra := map f r.extra }
  visit f r := r.traverse f
  extras_map f r := by simp [extras_map, extras_map_list]
  map_twice f g r := by simp [map_twice]
  map_self r := by simp [map_self, map_self_list]
  map_agree {_ _ f g r} h := by
    rw [map_agree_list fun e he => h e (List.mem_append_left _ he), map_agree fun e he => h e (List.mem_append_right _ he)]
  visit_eq f r := by
    rw [Reasoning.traverse, show r.summary.mapM (fun s => s.traverse f) = _ from mapM_check (visit_eq f) r.summary,
      show r.extra.traverse f = _ from visit_eq f r.extra]
    exact map_check_bind fun summary extra =>
      (⟨r.index, r.summaryIndex, summary, r.encryptedContent, extra⟩ : Reasoning _)

instance : Bearing ToolCall where
  extras c := extras c.extra
  map f c :=
    { index := c.index, type := c.type, id := c.id, name := c.name, arguments := c.arguments, extra := map f c.extra }
  visit f c := c.traverse f
  extras_map f c := extras_map f c.extra
  map_twice f g c := by simp [map_twice]
  map_self c := by simp [map_self]
  map_agree h := by simp [map_agree h]
  visit_eq f c := by
    rw [ToolCall.traverse, show c.extra.traverse f = _ from visit_eq f c.extra]
    cases check f (extras c.extra) <;> rfl

instance : Bearing McpResult where
  extras r := extras r.extra
  map f r :=
    { content := r.content, approvalRequestId := r.approvalRequestId, status := r.status, error := r.error,
      extra := map f r.extra }
  visit f r := r.traverse f
  extras_map f r := extras_map f r.extra
  map_twice f g r := by simp [map_twice]
  map_self r := by simp [map_self]
  map_agree h := by simp [map_agree h]
  visit_eq f r := by
    rw [McpResult.traverse, show r.extra.traverse f = _ from visit_eq f r.extra]
    cases check f (extras r.extra) <;> rfl

instance : Bearing ToolOutput where
  extras
    | .custom _ => []
    | .mcp r => extras r
  map f
    | .custom s => .custom s
    | .mcp r => .mcp (map f r)
  visit f o := o.traverse f
  extras_map f o := by cases o <;> simp [extras_map]
  map_twice f g o := by cases o <;> simp [map_twice]
  map_self o := by cases o <;> simp [map_self]
  map_agree {_ _ f g o} h := by
    cases o with
    | custom s => rfl
    | mcp r => simp [map_agree (f := f) (g := g) (x := r) h]
  visit_eq f o := by
    cases o with
    | custom s => rfl
    | mcp r =>
      rw [ToolOutput.traverse, show r.traverse f = _ from visit_eq f r]
      cases check f (extras r) <;> rfl

instance : Bearing ToolCallOutput where
  extras o := o.output.toList.flatMap extras
  map f o :=
    { index := o.index, type := o.type, callId := o.callId, toolName := o.toolName, output := o.output.map (map f) }
  visit f o := o.traverse f
  extras_map f o := by cases o.output <;> simp [extras_map]
  map_twice f g o := by cases o.output <;> simp [map_twice]
  map_self o := by cases o with | mk i t c n output => cases output <;> simp [map_self]
  map_agree {_ _ f g o} h := by
    cases ho : o.output with
    | none => simp
    | some held => simp [map_agree (f := f) (g := g) (x := held) (by simpa [ho] using h)]
  visit_eq f o := by
    cases ho : o.output with
    | none => simp [ToolCallOutput.traverse, ho]
    | some held =>
      rw [ToolCallOutput.traverse, ho, Option.mapM_some, show held.traverse f = _ from visit_eq f held]
      simp only [Option.toList_some, List.flatMap_singleton]
      cases check f (extras held) <;> rfl

instance : Bearing Payload where
  extras
    | .message m => extras m
    | .reasoning r => extras r
    | .toolCall c => extras c
    | .toolCallOutput o => extras o
    | _ => []
  map f
    | .message m => .message (map f m)
    | .reasoning r => .reasoning (map f r)
    | .toolCall c => .toolCall (map f c)
    | .toolCallOutput o => .toolCallOutput (map f o)
    | .mcpListTools l => .mcpListTools l
    | .mcpToolApprovalRequest q => .mcpToolApprovalRequest q
    | .mcpToolApprovalResponse a => .mcpToolApprovalResponse a
  visit f p := p.traverse f
  extras_map f p := by cases p <;> simp [extras_map]
  map_twice f g p := by cases p <;> simp [map_twice]
  map_self p := by cases p <;> simp [map_self]
  map_agree {_ _ f g p} h := by
    cases p with
    | message x | reasoning x | toolCall x | toolCallOutput x => simp [map_agree (f := f) (g := g) (x := x) h]
    | mcpListTools _ | mcpToolApprovalRequest _ | mcpToolApprovalResponse _ => rfl
  visit_eq f p := by
    cases p with
    | message x | reasoning x | toolCall x | toolCallOutput x =>
      rw [Payload.traverse, show x.traverse f = _ from visit_eq f x]
      cases check f (extras x) <;> rfl
    | mcpListTools _ | mcpToolApprovalRequest _ | mcpToolApprovalResponse _ => rfl

instance : Bearing Block where
  extras b := b.payload.toList.flatMap extras
  map f b := { type := b.type, payload := b.payload.map (map f) }
  visit f b := b.traverse f
  extras_map f b := by cases b.payload <;> simp [extras_map]
  map_twice f g b := by cases b.payload <;> simp [map_twice]
  map_self b := by cases b with | mk t payload => cases payload <;> simp [map_self]
  map_agree {_ _ f g b} h := by
    cases hb : b.payload with
    | none => simp
    | some held => simp [map_agree (f := f) (g := g) (x := held) (by simpa [hb] using h)]
  visit_eq f b := by
    cases hb : b.payload with
    | none => simp [Block.traverse, hb]
    | some held =>
      rw [Block.traverse, hb, Option.mapM_some, show held.traverse f = _ from visit_eq f held]
      simp only [Option.toList_some, List.flatMap_singleton]
      cases check f (extras held) <;> rfl

instance : Bearing Response where
  extras r := r.blocks.flatMap extras
  map f r := { id := r.id, finish := r.finish, usage := r.usage, blocks := r.blocks.map (map f) }
  visit f r := r.traverse f
  extras_map f r := extras_map_list f r.blocks
  map_twice f g r := by simp [map_twice]
  map_self r := by simp [map_self_list]
  map_agree {_ _ f g r} h := by simp [map_agree_list (f := f) (g := g) (l := r.blocks) h]
  visit_eq f r := by
    rw [Response.traverse, show r.blocks.mapM (fun b => b.traverse f) = _ from mapM_check (visit_eq f) r.blocks]
    cases check f (r.blocks.flatMap extras) <;> rfl

section
variable {X : Type → Type} [Bearing X] {ε E E' : Type} [Inhabited E'] {f : String → E → Except ε E'} {x : X E}

theorem visit_eq_ok {y : X E'} :
    visit f x = .ok y ↔ (∀ e ∈ extras x, ∃ w, f e.1 e.2 = .ok w) ∧ map (valueOf f) x = y := by
  rw [visit_eq, map_eq_ok, ← check_eq_ok]
  exact ⟨fun ⟨(), h⟩ => h, fun h => ⟨(), h⟩⟩

theorem visit_eq_error {m : ε} : visit f x = .error m ↔ ∃ before e after, extras x = before ++ e :: after ∧
    (∀ d ∈ before, ∃ w, f d.1 d.2 = .ok w) ∧ f e.1 e.2 = .error m := by
  rw [visit_eq, ← check_eq_error]
  cases check f (extras x) <;> simp

/-- A visit leads to a second one that is a single visit by both functions. -/
theorem visit_visit {E'' : Type} [Inhabited E''] {ε' : Type} {g : String → E' → Except ε' E''}
    {h : String → E → E''} {y : X E'} (hx : visit f x = .ok y)
    (hg : ∀ e ∈ extras x, ∀ w, f e.1 e.2 = .ok w → g e.1 w = .ok (h e.1 e.2)) : visit g y = .ok (map h x) := by
  obtain ⟨hok, rfl⟩ := visit_eq_ok.1 hx
  have hy : ∀ e ∈ extras x, g e.1 (valueOf f e.1 e.2) = .ok (h e.1 e.2) := by
    intro e he
    obtain ⟨w, hw⟩ := hok e he
    rw [valueOf_eq hw]
    exact hg e he w hw
  rw [visit_eq_ok, map_twice, extras_map]
  refine ⟨?_, map_agree fun e he => valueOf_eq (hy e he)⟩
  intro d hd
  obtain ⟨e, he, rfl⟩ := List.mem_map.1 hd
  exact ⟨_, hy e he⟩

/-- A second visit fails where it meets a value that it fails on, if it gets through those before. -/
theorem visit_first {E'' : Type} [Inhabited E''] {ε' : Type} {g : String → E' → Except ε' E''} {y : X E'}
    {before after : List (String × E)} {e : String × E} {m : ε'} (hx : visit f x = .ok y)
    (hes : extras x = before ++ e :: after) (hbefore : ∀ d ∈ before, ∀ w, f d.1 d.2 = .ok w → ∃ u, g d.1 w = .ok u)
    (he : ∀ w, f e.1 e.2 = .ok w → g e.1 w = .error m) : visit g y = .error m := by
  obtain ⟨hok, rfl⟩ := visit_eq_ok.1 hx
  rw [hes, List.forall_mem_append, List.forall_mem_cons] at hok
  obtain ⟨hokBefore, ⟨w, hw⟩, -⟩ := hok
  have passed : check g (before.map fun d => (d.1, valueOf f d.1 d.2)) = .ok () := by
    rw [check_eq_ok, List.forall_mem_map]
    intro d hd
    obtain ⟨u, hu⟩ := hokBefore d hd
    rw [valueOf_eq hu]
    exact hbefore d hd u hu
  rw [visit_eq, extras_map, hes, List.map_append, List.map_cons, check_append, passed, ok_bind, check_cons,
    valueOf_eq hw, he w hw]
  rfl

end

section
variable {X : Type → Type} [Bearing X] {ε ε' E E' : Type} {f : String → E → Except ε E'}

theorem check_mapError (h : ε → ε') (es : List (String × E)) :
    check (fun k v => (f k v).mapError h) es = (check f es).mapError h := by
  induction es with
  | nil => rfl
  | cons e es ih =>
    rw [check_cons, check_cons, ih]
    cases f e.1 e.2 <;> rfl

theorem visit_mapError [Inhabited E'] (h : ε → ε') (x : X E) :
    visit (fun k v => (f k v).mapError h) x = (visit f x).mapError h := by
  have same : valueOf (fun k v => (f k v).mapError h) = valueOf f := by
    funext k v
    simp only [valueOf]
    cases f k v <;> rfl
  rw [visit_eq, visit_eq, check_mapError, same]
  cases check f (extras x) <;> rfl

end

end TurnCodec
