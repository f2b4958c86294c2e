import AsciiDoc.Document.Json
import AsciiDoc.Format
import AsciiDoc.Proofs.JsonValues
import Mathlib.Data.List.Basic

namespace AsciiDoc

namespace Json

section Tokens

variable {r t : Text}

theorem Finds.unique {α : Type} {f : (s : Text) → Except Fault (α × Rest s)} {s : Text} {v w : α}
    (h : Finds f s v r) (h' : Finds f s w t) : v = w ∧ r = t := by
  have heq := h.symm.trans h'
  cases heq
  exact ⟨rfl, rfl⟩

theorem renderText_cancel {s u : Text} (h : renderText s ++ r = renderText u ++ t) : s = u ∧ r = t := by
  have hbody : s.flatMap escape ++ '"' :: r = u.flatMap escape ++ '"' :: t := by simpa [renderText] using h
  -- Reading either side finds its string and leaves what is behind.
  have hs := readString_finds (spells_flatMap_escape s) r
  rw [hbody] at hs
  exact hs.unique (readString_finds (spells_flatMap_escape u) t)

theorem decimal_cancel {m n : Nat} (hr : Ends r) (ht : Ends t) (h : Text.decimal m ++ r = Text.decimal n ++ t) :
    m = n ∧ r = t := by
  obtain ⟨htake, hdrop⟩ := takeWhile_digits (digits_decimal m).2 hr.not_isDigit
  obtain ⟨htake', hdrop'⟩ := takeWhile_digits (digits_decimal n).2 ht.not_isDigit
  rw [h] at htake hdrop
  have hdigits : Text.decimal m = Text.decimal n := htake.symm.trans htake'
  have hvalue : Nat.ofDigitChars 10 (Text.decimal m) 0 = m := Nat.ofDigitChars_ten_toDigits
  have hvalue' : Nat.ofDigitChars 10 (Text.decimal n) 0 = n := Nat.ofDigitChars_ten_toDigits
  rw [hdigits, hvalue'] at hvalue
  exact ⟨hvalue.symm, hdrop.symm.trans hdrop'⟩

theorem exists_decimal_cons (n : Nat) : ∃ d ds, Text.decimal n = d :: ds ∧ d.isDigit = true := by
  obtain ⟨hne, hdigits⟩ := digits_decimal n
  obtain ⟨d, ds, hds⟩ := List.exists_cons_of_ne_nil hne
  exact ⟨d, ds, hds, hdigits d (by simp [hds])⟩

theorem decimal_append_ne (n : Nat) : Text.decimal n ++ r ≠ '-' :: t := by
  obtain ⟨d, ds, hds, hd⟩ := exists_decimal_cons n
  rw [hds, List.cons_append]
  intro h
  exact ne_of_isDigit hd (by decide) (List.cons.inj h).1

theorem signedDecimal_cancel {m n : Int} (hr : Ends r) (ht : Ends t)
    (h : Text.signedDecimal m ++ r = Text.signedDecimal n ++ t) : m = n ∧ r = t := by
  cases m with
  | ofNat m =>
    cases n with
    | ofNat n =>
      obtain ⟨rfl, hrest⟩ := decimal_cancel hr ht h
      exact ⟨rfl, hrest⟩
    | negSucc n => exact absurd h (decimal_append_ne m)
  | negSucc m =>
    cases n with
    | ofNat n => exact absurd h.symm (decimal_append_ne n)
    | negSucc n =>
      obtain ⟨hvalue, hrest⟩ := decimal_cancel hr ht (List.cons.inj h).2
      cases hvalue
      exact ⟨rfl, hrest⟩

end Tokens

inductive Shape where
  | null
  | bool
  | int
  | text
  | array
  | object
  deriving DecidableEq

def shape : Json → Shape
  | null => .null
  | bool _ => .bool
  | int _ => .int
  | text _ => .text
  | array _ => .array
  | object _ => .object

def shapeOf? (c : Char) : Option Shape :=
  if c = 'n' then some .null
  else if c = 't' ∨ c = 'f' then some .bool
  else if c = '-' ∨ c.isDigit then some .int
  else if c = '"' then some .text
  else if c = '[' then some .array
  else if c = '\x7b' then some .object
  else none

theorem shapeOf?_digit {c : Char} (hc : c.isDigit = true) : shapeOf? c = some .int := by
  have hne {d : Char} (hd : d.isDigit = false) : c ≠ d := ne_of_isDigit hc hd
  simp [shapeOf?, hc, hne (d := 'n') rfl, hne (d := 't') rfl, hne (d := 'f') rfl]

theorem exists_render_cons (x : Json) : ∃ c s, x.render = c :: s ∧ shapeOf? c = some x.shape := by
  cases x with
  | null => exact ⟨_, _, rfl, rfl⟩
  | bool b => cases b <;> exact ⟨_, _, rfl, rfl⟩
  | int n =>
    cases n with
    | ofNat n =>
      obtain ⟨d, ds, hds, hd⟩ := exists_decimal_cons n
      exact ⟨d, ds, hds, shapeOf?_digit hd⟩
    | negSucc n => exact ⟨_, _, rfl, rfl⟩
  | text s => exact ⟨_, _, rfl, rfl⟩
  | array xs => cases xs <;> exact ⟨_, _, rfl, rfl⟩
  | object ms => cases ms <;> exact ⟨_, _, rfl, rfl⟩

theorem shape_eq_of_append {x y : Json} {r t : Text} (h : x.render ++ r = y.render ++ t) : x.shape = y.shape := by
  obtain ⟨c, s, hx, hc⟩ := exists_render_cons x
  obtain ⟨d, u, hy, hd⟩ := exists_render_cons y
  rw [hx, hy] at h
  obtain ⟨rfl, -⟩ := List.cons.inj h
  exact Option.some.inj (hc.symm.trans hd)

theorem render_append_ne {x : Json} {r t : Text} {c : Char} (hc : shapeOf? c = none) : x.render ++ r ≠ c :: t := by
  obtain ⟨d, s, hx, hd⟩ := exists_render_cons x
  rw [hx]
  intro h
  obtain ⟨rfl, -⟩ := List.cons.inj h
  rw [hc] at hd
  cases hd

def Cancels {α : Type} (f : α → Text) (x : α) : Prop :=
  ∀ (y : α) (r t : Text), Ends r → Ends t → f x ++ r = f y ++ t → x = y ∧ r = t

section Enclosed

variable {α : Type} {f : α → Text} {xs ys : List α} {r t : Text}

def separated (f : α → Text) (xs : List α) : Text := xs.flatMap fun x => ',' :: f x

def enclosed (frame : Frame) (f : α → Text) : List α → Text
  | [] => [frame.opening, frame.closing]
  | x :: xs => frame.opening :: (f x ++ (separated f xs ++ [frame.closing]))

theorem separated_cons (x : α) (xs : List α) (r : Text) :
    separated f (x :: xs) ++ r = ',' :: (f x ++ (separated f xs ++ r)) := by
  simp [separated]

theorem enclosed_cons (frame : Frame) (x : α) (xs : List α) (r : Text) :
    enclosed frame f (x :: xs) ++ r = frame.opening :: (f x ++ (separated f xs ++ frame.closing :: r)) := by
  simp [enclosed]

theorem ends_separated (frame : Frame) (xs : List α) (r : Text) : Ends (separated f xs ++ frame.closing :: r) := by
  cases xs with
  | nil => exact frame.ends_closing r
  | cons x xs =>
    rw [separated_cons]
    exact ends_comma _

theorem comma_ne_closing (frame : Frame) : ',' ≠ frame.closing := by cases frame <;> decide

theorem separated_cancel (frame : Frame) (hxs : ∀ x ∈ xs, Cancels f x)
    (h : separated f xs ++ frame.closing :: r = separated f ys ++ frame.closing :: t) : xs = ys ∧ r = t := by
  induction xs generalizing ys with
  | nil =>
    cases ys with
    | nil => exact ⟨rfl, (List.cons.inj h).2⟩
    | cons y ys =>
      rw [separated_cons] at h
      exact absurd (List.cons.inj h).1.symm (comma_ne_closing frame)
  | cons x xs ih =>
    rw [separated_cons] at h
    cases ys with
    | nil => exact absurd (List.cons.inj h).1 (comma_ne_closing frame)
    | cons y ys =>
      rw [separated_cons] at h
      obtain ⟨hx, hxs⟩ := List.forall_mem_cons.mp hxs
      obtain ⟨rfl, hrest⟩ := hx y _ _ (ends_separated frame xs r) (ends_separated frame ys t) (List.cons.inj h).2
      obtain ⟨rfl, rfl⟩ := ih hxs hrest
      exact ⟨rfl, rfl⟩

theorem enclosed_cancel (frame : Frame) (hopen : ∀ x r t, f x ++ r ≠ frame.closing :: t)
    (hxs : ∀ x ∈ xs, Cancels f x) (h : enclosed frame f xs ++ r = enclosed frame f ys ++ t) : xs = ys ∧ r = t := by
  cases xs with
  | nil =>
    cases ys with
    | nil => exact ⟨rfl, List.append_cancel_left h⟩
    | cons y ys =>
      rw [enclosed_cons] at h
      exact absurd (List.cons.inj h).2.symm (hopen y _ _)
  | cons x xs =>
    rw [enclosed_cons] at h
    cases ys with
    | nil => exact absurd (List.cons.inj h).2 (hopen x _ _)
    | cons y ys =>
      rw [enclosed_cons] at h
      -- Both have a first item, so they may be compared as items behind another one.
      apply separated_cancel frame hxs
      rw [separated_cons, separated_cons, (List.cons.inj h).2]

end Enclosed

section Values

def renderMember (m : String × Json) : Text := renderText m.1.toList ++ ':' :: m.2.render

theorem renderItems_eq (xs : List Json) : renderItems xs = separated render xs := by
  induction xs with
  | nil => rfl
  | cons x xs ih =>
    change ',' :: x.render ++ renderItems xs = _
    rw [ih]
    rfl

theorem renderMembers_eq (ms : List (String × Json)) : renderMembers ms = separated renderMember ms := by
  induction ms with
  | nil => rfl
  | cons m ms ih =>
    change ',' :: renderText m.1.toList ++ ':' :: m.2.render ++ renderMembers ms = _
    rw [ih]
    simp [separated, renderMember]

theorem render_array (xs : List Json) : (array xs).render = enclosed .list render xs := by
  cases xs with
  | nil => rfl
  | cons x xs =>
    change '[' :: x.render ++ renderItems xs ++ [']'] = _
    rw [renderItems_eq]
    simp [enclosed, Frame.opening, Frame.closing]

theorem render_object (ms : List (String × Json)) : (object ms).render = enclosed .object renderMember ms := by
  cases ms with
  | nil => rfl
  | cons m ms =>
    change '\x7b' :: renderText m.1.toList ++ ':' :: m.2.render ++ renderMembers ms ++ ['\x7d'] = _
    rw [renderMembers_eq]
    simp [enclosed, renderMember, Frame.opening, Frame.closing]

theorem cancels_null : Cancels render null := by
  intro y r t _ _ h
  have hshape := shape_eq_of_append h
  cases y with
  | null => exact ⟨rfl, List.append_cancel_left h⟩
  | _ => cases hshape

theorem cancels_bool (b : Bool) : Cancels render (bool b) := by
  intro y r t _ _ h
  have hshape := shape_eq_of_append h
  cases y with
  | bool b' =>
    cases b with
    | true =>
      cases b' with
      | true => exact ⟨rfl, List.append_cancel_left h⟩
      | false => exact absurd (List.cons.inj h).1 (by decide)
    | false =>
      cases b' with
      | true => exact absurd (List.cons.inj h).1 (by decide)
      | false => exact ⟨rfl, List.append_cancel_left h⟩
  | _ => cases hshape

theorem cancels_int (n : Int) : Cancels render (int n) := by
  intro y r t hr ht h
  have hshape := shape_eq_of_append h
  cases y with
  | int m =>
    obtain ⟨rfl, hrest⟩ := signedDecimal_cancel hr ht h
    exact ⟨rfl, hrest⟩
  | _ => cases hshape

theorem cancels_text (s : Text) : Cancels render (text s) := by
  intro y r t _ _ h
  have hshape := shape_eq_of_append h
  cases y with
  | text u =>
    obtain ⟨rfl, hrest⟩ := renderText_cancel h
    exact ⟨rfl, hrest⟩
  | _ => cases hshape

theorem cancels_array {xs : List Json} (hxs : ∀ x ∈ xs, Cancels render x) : Cancels render (array xs) := by
  intro y r t _ _ h
  have hshape := shape_eq_of_append h
  cases y with
  | array ys =>
    rw [render_array, render_array] at h
    obtain ⟨rfl, hrest⟩ := enclosed_cancel .list (fun x r t => render_append_ne rfl) hxs h
    exact ⟨rfl, hrest⟩
  | _ => cases hshape

theorem cancels_member {m : String × Json} (hm : Cancels render m.2) : Cancels renderMember m := by
  obtain ⟨key, x⟩ := m
  rintro ⟨key', y⟩ r t hr ht h
  simp only [renderMember, List.append_assoc, List.cons_append] at h
  obtain ⟨hkey, hvalue⟩ := renderText_cancel h
  obtain rfl := String.toList_inj.mp hkey
  obtain ⟨rfl, hrest⟩ := hm y r t hr ht (List.cons.inj hvalue).2
  exact ⟨rfl, hrest⟩

theorem cancels_object {ms : List (String × Json)} (hms : ∀ m ∈ ms, Cancels render m.2) :
    Cancels render (object ms) := by
  intro y r t _ _ h
  have hshape := shape_eq_of_append h
  cases y with
  | object ns =>
    rw [render_object, render_object] at h
    have hopen : ∀ m r t, renderMember m ++ r ≠ Frame.object.closing :: t := by
      intro m r t h
      exact absurd (List.cons.inj h).1 (by decide)
    obtain ⟨rfl, hrest⟩ := enclosed_cancel .object hopen (fun m hm => cancels_member (hms m hm)) h
    exact ⟨rfl, hrest⟩
  | _ => cases hshape

theorem sizeOf_member_lt {m : String × Json} {ms : List (String × Json)} (h : m ∈ ms) :
    sizeOf m.2 < 1 + sizeOf ms := by
  have hpair : sizeOf m = 1 + sizeOf m.1 + sizeOf m.2 := rfl
  have hmember := List.sizeOf_lt_of_mem h
  omega

theorem cancels_render : (x : Json) → Cancels render x
  | null => cancels_null
  | bool b => cancels_bool b
  | int n => cancels_int n
  | text s => cancels_text s
  | array xs => cancels_array fun x _ => cancels_render x
  | object ms => cancels_object fun m hm =>
    have := sizeOf_member_lt hm
    cancels_render m.2

theorem render_injective {x y : Json} (h : x.render = y.render) : x = y := by
  have hnil : Ends [] := nofun
  exact (cancels_render x y [] [] hnil hnil (congrArg (· ++ []) h)).1

end Values

end Json

section Documents

theorem Location.toJson_injective : Function.Injective Location.toJson := by
  rintro ⟨start, stop⟩ ⟨start', stop'⟩ h
  simpa [toJson] using h

theorem Json.element_inj {type type' : String} {members members' : List (String × Json)} {l l' : Location}
    (h : Json.element type members l = Json.element type' members' l') :
    type = type' ∧ members = members' ∧ l = l' := by
  obtain ⟨htype, hrest⟩ := List.cons.inj (Json.object.inj h)
  obtain ⟨hmembers, hlocation⟩ := List.append_singleton_inj.mp hrest
  have htype : type.toList = type'.toList := Json.text.inj (congrArg Prod.snd htype)
  have hlocation : l.toJson = l'.toJson := congrArg Prod.snd hlocation
  exact ⟨String.toList_inj.mp htype, hmembers, Location.toJson_injective hlocation⟩

theorem Json.text_injective : Function.Injective Json.text := fun _ _ => Json.text.inj

theorem Json.textOrNull_injective : Function.Injective Json.textOrNull := by
  intro a b h
  cases a with
  | none =>
    cases b with
    | none => rfl
    | some s => cases h
  | some s =>
    cases b with
    | none => cases h
    | some u => exact congrArg some (Json.text.inj h)

theorem Line.toJson_injective : Function.Injective Line.toJson := by
  rintro ⟨words, l⟩ ⟨words', l'⟩ h
  obtain ⟨-, hmembers, rfl⟩ := Json.element_inj h
  have hwords : words.map Json.text = words'.map Json.text := by simpa using hmembers
  rw [Json.text_injective.list_map hwords]

theorem Headline.toJson_injective : Function.Injective Headline.toJson := by
  rintro ⟨level, title, l⟩ ⟨level', title', l'⟩ h
  obtain ⟨-, hmembers, rfl⟩ := Json.element_inj h
  obtain ⟨hlevel, htitle⟩ : (level : Int) = level' ∧ title.toJson = title'.toJson := by
    simpa [Json.nat] using hmembers
  rw [Int.ofNat.inj hlevel, Line.toJson_injective htitle]

theorem Paragraph.toJson_injective : Function.Injective Paragraph.toJson := by
  rintro ⟨lines, isLiteral, l⟩ ⟨lines', isLiteral', l'⟩ h
  obtain ⟨-, hmembers, rfl⟩ := Json.element_inj h
  obtain ⟨hlines, hliteral⟩ : lines.map Line.toJson = lines'.map Line.toJson ∧ isLiteral = isLiteral' := by
    simpa using hmembers
  rw [Line.toJson_injective.list_map hlines, hliteral]

theorem AttributeValue.toJson_injective : Function.Injective AttributeValue.toJson := by
  rintro ⟨values, l⟩ ⟨values', l'⟩ h
  obtain ⟨-, hmembers, rfl⟩ := Json.element_inj h
  have hvalues : values.map Json.text = values'.map Json.text := by simpa using hmembers
  rw [Json.text_injective.list_map hvalues]

theorem Attribute.toJson_injective : Function.Injective Attribute.toJson := by
  rintro ⟨key, value, l⟩ ⟨key', value', l'⟩ h
  obtain ⟨-, hmembers, rfl⟩ := Json.element_inj h
  obtain ⟨hkey, hvalue⟩ : Json.textOrNull key = Json.textOrNull key' ∧ value.toJson = value'.toJson := by
    simpa using hmembers
  rw [Json.textOrNull_injective hkey, AttributeValue.toJson_injective hvalue]

theorem AttributeList.toJson_injective : Function.Injective AttributeList.toJson := by
  rintro ⟨attributes, l⟩ ⟨attributes', l'⟩ h
  obtain ⟨-, hmembers, rfl⟩ := Json.element_inj h
  have hattributes : attributes.map Attribute.toJson = attributes'.map Attribute.toJson := by simpa using hmembers
  rw [Attribute.toJson_injective.list_map hattributes]

theorem AttributeBlock.toJson_injective : Function.Injective AttributeBlock.toJson := by
  rintro ⟨list, l⟩ ⟨list', l'⟩ h
  obtain ⟨-, hmembers, rfl⟩ := Json.element_inj h
  have hlist : list.toJson = list'.toJson := by simpa using hmembers
  rw [AttributeList.toJson_injective hlist]

theorem Block.toJson_injective : Function.Injective Block.toJson := by
  intro b b' h
  cases b with
  | headline x =>
    cases b' with
    | headline y => exact congrArg headline (Headline.toJson_injective h)
    | _ => exact absurd (Json.element_inj h).1 (by decide)
  | paragraph x =>
    cases b' with
    | paragraph y => exact congrArg paragraph (Paragraph.toJson_injective h)
    | _ => exact absurd (Json.element_inj h).1 (by decide)
  | emptyLine x =>
    cases b' with
    | emptyLine y => exact congrArg emptyLine (Json.element_inj h).2.2
    | _ => exact absurd (Json.element_inj h).1 (by decide)
  | attributes x =>
    cases b' with
    | attributes y => exact congrArg attributes (AttributeBlock.toJson_injective h)
    | _ => exact absurd (Json.element_inj h).1 (by decide)

theorem Document.toJson_injective : Function.Injective Document.toJson := by
  rintro ⟨blocks, l⟩ ⟨blocks', l'⟩ h
  obtain ⟨-, hmembers, rfl⟩ := Json.element_inj h
  have hblocks : blocks.map Block.toJson = blocks'.map Block.toJson := by simpa using hmembers
  rw [Block.toJson_injective.list_map hblocks]

theorem Document.eq_of_render_toJson_eq {d d' : Document} (h : d.toJson.render = d'.toJson.render) : d = d' :=
  Document.toJson_injective (Json.render_injective h)

theorem Document.eq_of_render_toJson_eq_parsed :
    let text := "== \"é\\\x01\n[a,null=\"b c\"]".toList
    let built : Document := ⟨
      [.headline ⟨1, ⟨["\"é\\\x01".toList], ⟨4, 9⟩⟩, ⟨0, 9⟩⟩,
        .attributes ⟨⟨
          [⟨none, ⟨[['a']], ⟨11, 12⟩⟩, ⟨11, 12⟩⟩,
            ⟨some "null".toList, ⟨[['b'], ['c']], ⟨18, 23⟩⟩, ⟨13, 23⟩⟩], ⟨10, 24⟩⟩, ⟨9, 24⟩⟩], ⟨0, 24⟩⟩
    ∃ d, parse {} text = .ok d ∧ d.toJson.render = built.toJson.render ∧ d = built := by
  intro text built
  have hparse : (parse {} text).toOption.any (fun d => d.toJson.render = built.toJson.render) = true := by
    decide +kernel
  generalize htext : parse {} _ = result at hparse ⊢
  cases result with
  | error e => cases hparse
  | ok d =>
    have hrender := of_decide_eq_true hparse
    exact ⟨d, rfl, hrender, eq_of_render_toJson_eq hrender⟩

end Documents

end AsciiDoc
