import Mathlib.Computability.Language
import Xv6Swap.User.Sh

/-!
# grep and its matcher

`grep`, `match`, `matchhere` and `matchstar` of `user/grep.c`.  A string is the list of the bytes
before its NUL.

The meaning of a pattern is a language: that of its items one after the other, searched for
anywhere in the text, or at one of its ends.

* `match_iff` : the matcher finds exactly the texts in which the language of the pattern occurs.
-/

namespace Xv6Swap.Grep

open List Bool

variable {here : List Byte → Bool}
open Sh (ch)

/-! ### The matcher -/

/-- `matchstar`, where `here` is `matchhere` with the rest of the pattern. -/
def matchstar (here : List Byte → Bool) (c : Byte) : List Byte → Bool
  | [] => here []
  | t :: text => here (t :: text) || ((t == c || c == ch '.') && matchstar here c text)

/-- The last test of `matchhere`, where `here` is `matchhere` with the rest of the pattern. -/
def matchone (here : List Byte → Bool) (c : Byte) : List Byte → Bool
  | [] => false
  | t :: text => (c == ch '.' || c == t) && here text

def matchhere : List Byte → List Byte → Bool
  | [], _ => true
  | [c], text => if c = ch '$' then text.isEmpty else matchone (matchhere []) c text
  | c :: d :: re, text =>
    if d = ch '*' then matchstar (matchhere re) c text else matchone (matchhere (d :: re)) c text

/-- The loop of `match`. -/
def matchLoop (re : List Byte) : List Byte → Bool
  | [] => matchhere re []
  | t :: text => matchhere re (t :: text) || matchLoop re text

/-- `match` -/
def match' (re text : List Byte) : Bool :=
  if re.head? = some (ch '^') then matchhere re.tail text else matchLoop re text

/-! ### The meaning of a pattern -/

/-- What a pattern is made of: a character, or any number of a character. -/
inductive Item where
  | one (c : Byte)
  | star (c : Byte)

/-- The item that `c` stands for, with `.` for any character. -/
def charLang (c : Byte) : Language Byte := {w | ∃ b, w = [b] ∧ (c = ch '.' ∨ c = b)}

def Item.lang : Item → Language Byte
  | one c => charLang c
  | star c => KStar.kstar (charLang c)

/-- The items of a pattern without its leading `^`, and whether it ends in the anchor `$`. -/
def items : List Byte → List Item × Bool
  | [] => ([], false)
  | [c] => if c = ch '$' then ([], true) else ([.one c], false)
  | c :: d :: re =>
    if d = ch '*' then (.star c :: (items re).1, (items re).2)
    else (.one c :: (items (d :: re)).1, (items (d :: re)).2)

/-- The language of a list of items. -/
def langOf (l : List Item) : Language Byte := (l.map Item.lang).prod

/-- The text begins with a word of the language, and is that word if the end is anchored. -/
def Begins (l : Language Byte) (atEnd : Bool) (text : List Byte) : Prop :=
  ∃ mid post, text = mid ++ post ∧ mid ∈ l ∧ (atEnd = true → post = [])

section

variable {l m : Language Byte} {e : Bool} {c t : Byte} {text : List Byte}

theorem begins_add : Begins (l + m) e text ↔ Begins l e text ∨ Begins m e text := by
  simp only [Begins, Language.mem_add, or_and_right, and_or_left, exists_or]

theorem not_begins_char_nil : ¬ Begins (charLang c * l) e [] := by
  rintro ⟨mid, post, h, hm, -⟩
  obtain ⟨_, ⟨b, rfl, -⟩, v, -, rfl⟩ := Language.mem_mul.1 hm
  cases h

theorem begins_char_cons :
    Begins (charLang c * l) e (t :: text) ↔ (c = ch '.' ∨ c = t) ∧ Begins l e text := by
  constructor
  · rintro ⟨mid, post, h, hm, hp⟩
    obtain ⟨_, ⟨b, rfl, hb⟩, v, hv, rfl⟩ := Language.mem_mul.1 hm
    obtain ⟨rfl, rfl⟩ := cons.inj h
    exact ⟨hb, v, post, rfl, hv, hp⟩
  · rintro ⟨hc, mid, post, rfl, hm, hp⟩
    have ht : [t] ∈ charLang c := ⟨t, rfl, hc⟩
    exact ⟨t :: mid, post, rfl, Language.append_mem_mul ht hm, hp⟩

/-- Any number of characters is none of them, or one and any number. -/
theorem begins_star : Begins (KStar.kstar (charLang c) * l) e text ↔
    Begins l e text ∨ Begins (charLang c * (KStar.kstar (charLang c) * l)) e text := by
  rw [← begins_add]
  nth_rewrite 1 [← Language.one_add_self_mul_kstar_eq_kstar]
  rw [add_mul, one_mul, mul_assoc]

theorem matchstar_iff (h : ∀ s, here s = true ↔ Begins l e s) (c : Byte) (text : List Byte) :
    matchstar here c text = true ↔ Begins (KStar.kstar (charLang c) * l) e text := by
  induction text with
  | nil => rw [matchstar, begins_star, h, or_iff_left not_begins_char_nil]
  | cons t text ih =>
    rw [matchstar, begins_star, begins_char_cons, ← ih, or_eq_true, h, and_eq_true,
      or_eq_true, beq_iff_eq, beq_iff_eq, or_comm (a := t = c), eq_comm (a := t)]

theorem matchone_iff (h : ∀ s, here s = true ↔ Begins l e s) (c : Byte) (text : List Byte) :
    matchone here c text = true ↔ Begins (charLang c * l) e text := by
  cases text with
  | nil => exact iff_of_false false_ne_true not_begins_char_nil
  | cons t text =>
    rw [matchone, begins_char_cons, and_eq_true, or_eq_true, beq_iff_eq, beq_iff_eq, h]

end

theorem matchhere_nil_iff (text : List Byte) : matchhere [] text = true ↔ Begins 1 false text :=
  iff_of_true rfl ⟨[], text, rfl, rfl, nofun⟩

/-- **`matchhere`** looks at the beginning of the text. -/
theorem matchhere_iff (re text : List Byte) :
    matchhere re text = true ↔ Begins (langOf (items re).1) (items re).2 text := by
  induction re using items.induct generalizing text with
  | case1 => exact matchhere_nil_iff text
  | case2 =>
    rw [matchhere, items, if_pos rfl, if_pos rfl, List.isEmpty_iff]
    constructor
    · rintro rfl
      exact ⟨[], [], rfl, rfl, fun _ => rfl⟩
    · rintro ⟨_, post, rfl, rfl, hp⟩
      exact hp rfl
  | case3 c hc =>
    rw [matchhere, items, if_neg hc, if_neg hc]
    exact matchone_iff matchhere_nil_iff c text
  | case4 c re ih =>
    rw [matchhere, items, if_pos rfl, if_pos rfl]
    exact matchstar_iff ih c text
  | case5 c d re hd ih =>
    rw [matchhere, items, if_neg hd, if_neg hd]
    exact matchone_iff ih c text

theorem matchLoop_iff (re text : List Byte) :
    matchLoop re text = true ↔ ∃ pre rest, text = pre ++ rest ∧ matchhere re rest = true := by
  induction text with
  | nil =>
    refine ⟨fun h => ⟨[], [], rfl, h⟩, ?_⟩
    rintro ⟨pre, rest, h, hm⟩
    obtain ⟨rfl, rfl⟩ := append_eq_nil_iff.1 h.symm
    exact hm
  | cons t text ih =>
    rw [matchLoop, or_eq_true, ih]
    constructor
    · rintro (h | ⟨pre, rest, rfl, h⟩)
      · exact ⟨[], t :: text, rfl, h⟩
      · exact ⟨t :: pre, rest, rfl, h⟩
    · rintro ⟨_ | ⟨p, pre⟩, rest, h, hm⟩
      · exact .inl (h ▸ hm)
      · obtain ⟨rfl, rfl⟩ := cons.inj h
        exact .inr ⟨pre, rest, rfl, hm⟩

/-- The pattern begins with the anchor `^`. -/
def anchored (re : List Byte) : Bool := re.head? = some (ch '^')

/-- The pattern behind the anchor. -/
def body (re : List Byte) : List Byte := if anchored re then re.tail else re

/-- **The matcher implements its patterns**: some part of the text is in the language of the items,
the beginning of the text if the pattern has the anchor `^`, and the end if it has `$`. -/
theorem match_iff (re text : List Byte) :
    match' re text = true ↔ ∃ pre mid post, text = pre ++ mid ++ post ∧
      mid ∈ langOf (items (body re)).1 ∧ (anchored re = true → pre = []) ∧
      ((items (body re)).2 = true → post = []) := by
  have hbody : match' re text =
      if anchored re = true then matchhere (body re) text else matchLoop (body re) text := by
    simp only [match', anchored, body, decide_eq_true_eq]
    split <;> rfl
  rw [hbody]
  cases anchored re with
  | true =>
    rw [if_pos rfl, matchhere_iff]
    constructor
    · rintro ⟨mid, post, rfl, hm, hp⟩
      exact ⟨[], mid, post, rfl, hm, fun _ => rfl, hp⟩
    · rintro ⟨pre, mid, post, rfl, hm, hpre, hp⟩
      rw [hpre rfl]
      exact ⟨mid, post, rfl, hm, hp⟩
  | false =>
    rw [if_neg Bool.false_ne_true, matchLoop_iff]
    constructor
    · rintro ⟨pre, rest, rfl, h⟩
      obtain ⟨mid, post, rfl, hm, hp⟩ := (matchhere_iff _ _).1 h
      exact ⟨pre, mid, post, (append_assoc ..).symm, hm, nofun, hp⟩
    · rintro ⟨pre, mid, post, rfl, hm, -, hp⟩
      exact ⟨pre, mid ++ post, append_assoc .., (matchhere_iff _ _).2 ⟨mid, post, rfl, hm, hp⟩⟩

end Xv6Swap.Grep
