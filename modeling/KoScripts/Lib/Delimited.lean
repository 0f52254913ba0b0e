import Mathlib.Logic.Function.Basic

/-! # Delimited messages in a stream

A stream with messages between an opening and a closing symbol: gaps without the opening symbol,
messages without the closing one, and at the end perhaps a message that is unfinished. Every list of
symbols is such a stream, in exactly one way. -/

namespace Lib

universe u v

/-- The lists without the symbol `a`. -/
abbrev Free {α : Type u} (a : α) := { xs : List α // a ∉ xs }

namespace Free
variable {α : Type u} {a b : α}

def nil : Free a := ⟨[], List.not_mem_nil⟩

def cons (b : α) (h : ¬b = a) (xs : Free a) : Free a :=
  ⟨b :: xs.1, by
    rw [List.mem_cons]
    rintro (hb | hxs)
    · exact h hb.symm
    · exact xs.2 hxs⟩

theorem head_ne {xs : List α} (h : a ∉ b :: xs) : ¬b = a :=
  fun hb => h (hb ▸ List.mem_cons_self)

theorem tail {xs : List α} (h : a ∉ b :: xs) : a ∉ xs :=
  fun hxs => h (List.mem_cons_of_mem b hxs)

end Free

structure Delimited {α : Type u} (opening closing : α) where
  gap : Free opening
  /-- The messages, each with the gap behind it. -/
  frames : List (Free closing × Free opening)
  unfinished : Option (Free closing)

namespace Delimited
variable {α : Type u} {o c : α}

/-- The stream of a first gap, frames and an unfinished message. -/
def stream (gap : List α) : List (Free c × Free o) → Option (Free c) → List α
  | [], none => gap
  | [], some m => gap ++ o :: m.1
  | (m, g) :: frames, unfinished => gap ++ o :: (m.1 ++ c :: stream g.1 frames unfinished)

def render (d : Delimited o c) : List α := stream d.gap.1 d.frames d.unfinished

/-- The messages, the unfinished one included, put together. -/
def payload (d : Delimited o c) : List α :=
  d.frames.flatMap (fun f => f.1.1) ++ d.unfinished.elim [] Subtype.val

/-- The input a message and what is behind it stand for. -/
def renderMessage : Free c × Option (Delimited o c) → List α
  | (m, none) => m.1
  | (m, some d) => m.1 ++ c :: d.render

theorem render_cons_gap {b : α} (h : ¬b = o) (d : Delimited o c) :
    ({ d with gap := d.gap.cons b h } : Delimited o c).render = b :: d.render := by
  rcases d with ⟨gap, _ | ⟨f, frames⟩, _ | m⟩ <;> rfl

theorem renderMessage_cons {b : α} (h : ¬b = c) (r : Free c × Option (Delimited o c)) :
    renderMessage (r.1.cons b h, r.2) = b :: renderMessage r := by
  rcases r with ⟨m, _ | d⟩ <;> rfl

section
variable [DecidableEq α]

mutual

/-- Outside a message. -/
def parse : List α → Delimited o c
  | [] => ⟨.nil, [], none⟩
  | b :: bs =>
    if h : b = o then
      match parseMessage bs with
      | (m, none) => ⟨.nil, [], some m⟩
      | (m, some d) => ⟨.nil, (m, d.gap) :: d.frames, d.unfinished⟩
    else
      let d := parse bs
      { d with gap := d.gap.cons b h }

/-- Inside a message: the rest of it, and what is behind it if it is finished. -/
def parseMessage : List α → Free c × Option (Delimited o c)
  | [] => (.nil, none)
  | b :: bs =>
    if h : b = c then (.nil, some (parse bs))
    else
      let (m, d) := parseMessage bs
      (m.cons b h, d)

end

theorem parse_opening (bs : List α) :
    (parse (o :: bs) : Delimited o c) = match parseMessage bs with
      | (m, none) => ⟨.nil, [], some m⟩
      | (m, some d) => ⟨.nil, (m, d.gap) :: d.frames, d.unfinished⟩ := by
  rw [parse, dif_pos rfl]

theorem parse_other {b : α} (h : ¬b = o) (bs : List α) :
    (parse (b :: bs) : Delimited o c) =
      { parse bs with gap := (parse bs : Delimited o c).gap.cons b h } := by
  rw [parse, dif_neg h]

theorem parseMessage_closing (bs : List α) :
    (parseMessage (c :: bs) : Free c × Option (Delimited o c)) = (.nil, some (parse bs)) := by
  rw [parseMessage, dif_pos rfl]

theorem parseMessage_other {b : α} (h : ¬b = c) (bs : List α) :
    (parseMessage (b :: bs) : Free c × Option (Delimited o c)) =
      ((parseMessage (o := o) bs).1.cons b h, (parseMessage bs).2) := by
  rw [parseMessage, dif_neg h]

/-! ### What is parsed renders to the input -/

mutual

theorem render_parse (bs : List α) : (parse bs : Delimited o c).render = bs := by
  match bs with
  | [] => rfl
  | b :: bs =>
    by_cases h : b = o
    · have hm : renderMessage (parseMessage bs : Free c × Option (Delimited o c)) = bs :=
        renderMessage_parseMessage bs
      rw [h, parse_opening]
      rcases hr : (parseMessage bs : Free c × Option (Delimited o c)) with ⟨m, _ | d⟩
      · rw [hr] at hm
        exact congrArg (o :: ·) hm
      · rw [hr] at hm
        exact congrArg (o :: ·) hm
    · rw [parse_other h, render_cons_gap, render_parse bs]

theorem renderMessage_parseMessage (bs : List α) :
    renderMessage (parseMessage bs : Free c × Option (Delimited o c)) = bs := by
  match bs with
  | [] => rfl
  | b :: bs =>
    by_cases h : b = c
    · rw [h, parseMessage_closing]
      exact congrArg (c :: ·) (render_parse bs)
    · rw [parseMessage_other h, renderMessage_cons, renderMessage_parseMessage bs]

end

/-! ### What is rendered parses to itself -/

/-- A gap in front is read into the first gap. -/
theorem parse_gap (g : Free o) (bs : List α) (hd : (parse bs : Delimited o c).gap = .nil) :
    (parse (g.1 ++ bs) : Delimited o c) = { parse bs with gap := g } := by
  rcases g with ⟨g, hg⟩
  induction g with
  | nil =>
    change parse bs = _
    rw [← show (.nil : Free o) = ⟨[], hg⟩ from rfl, ← hd]
  | cons b g ih =>
    change parse (b :: (g ++ bs)) = _
    rw [parse_other (Free.head_ne hg), ih (Free.tail hg)]
    rfl

/-- Symbols of a message in front are read into it. -/
theorem parseMessage_message (m : Free c) (bs : List α)
    (hm : (parseMessage bs : Free c × Option (Delimited o c)).1 = .nil) :
    (parseMessage (m.1 ++ bs) : Free c × Option (Delimited o c)) = (m, (parseMessage bs).2) := by
  rcases m with ⟨m, hc⟩
  induction m with
  | nil =>
    change parseMessage bs = _
    rw [← show (.nil : Free c) = ⟨[], hc⟩ from rfl, ← hm]
  | cons b m ih =>
    change parseMessage (b :: (m ++ bs)) = _
    rw [parseMessage_other (Free.head_ne hc), ih (Free.tail hc)]
    rfl

theorem parse_stream (frames : List (Free c × Free o)) (unfinished : Option (Free c))
    (gap : Free o) : parse (stream gap.1 frames unfinished) = ⟨gap, frames, unfinished⟩ := by
  induction frames generalizing gap with
  | nil =>
    cases unfinished with
    | none =>
      have h := parse_gap (c := c) gap [] rfl
      rwa [List.append_nil] at h
    | some m =>
      have hm := parseMessage_message (o := o) m [] rfl
      rw [List.append_nil] at hm
      have h : (parse (o :: m.1) : Delimited o c) = ⟨.nil, [], some m⟩ := by
        rw [parse_opening, hm]
        rfl
      change parse (gap.1 ++ o :: m.1) = _
      rw [parse_gap gap _ (by rw [h]), h]
  | cons f frames ih =>
    rcases f with ⟨m, g⟩
    have hm : (parseMessage (m.1 ++ c :: stream g.1 frames unfinished) :
        Free c × Option (Delimited o c)) = (m, some ⟨g, frames, unfinished⟩) := by
      rw [parseMessage_message m _ (by rw [parseMessage_closing]), parseMessage_closing, ih]
    have h : (parse (o :: (m.1 ++ c :: stream g.1 frames unfinished)) : Delimited o c) =
        ⟨.nil, (m, g) :: frames, unfinished⟩ := by
      rw [parse_opening, hm]
    change parse (gap.1 ++ o :: (m.1 ++ c :: stream g.1 frames unfinished)) = _
    rw [parse_gap gap _ (by rw [h]), h]

theorem parse_render (d : Delimited o c) : parse d.render = d :=
  parse_stream d.frames d.unfinished d.gap

variable (o c) in
/-- Every list is such a stream in exactly one way. -/
theorem existsUnique_render (bs : List α) : ∃! d : Delimited o c, d.render = bs :=
  Function.Bijective.existsUnique
    (Function.bijective_iff_has_inverse.mpr ⟨parse, parse_render, render_parse⟩) bs

end
end Delimited
end Lib
