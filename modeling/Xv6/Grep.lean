/-
# The regular expressions of `grep` (`grep.c`)

`match`, `matchhere` and `matchstar` work on C strings.  A string is here the list of its bytes before the
terminating zero, none of which is zero, and the source reads zero just where the list ends.

What a pattern means is said apart from them: `Regex.read` reads it as a list of pieces between two
anchors, a piece stands for a language, and a text matches when it contains a word of the product of these
languages that lies at the anchored ends.
-/
import Mathlib.Computability.Language

open List

namespace Grep

/-- A byte of a string. -/
abbrev Chr : Type := { c : UInt8 // c ≠ 0 }

/-- `'^'`. -/
def caret : Chr := ⟨94, by decide⟩

/-- `'$'`. -/
def dollar : Chr := ⟨36, by decide⟩

/-- `'.'`. -/
def period : Chr := ⟨46, by decide⟩

/-- `'*'`. -/
def asterisk : Chr := ⟨42, by decide⟩

/-! ## The matcher -/

/-- Search for `c*re` at the beginning of the text, where `matchhere` searches for `re`. -/
def matchstar (matchhere : List Chr → Bool) (c : Chr) : List Chr → Bool
  | [] => matchhere []
  | t :: text =>
    if matchhere (t :: text) then true
    else if t = c ∨ c = period then matchstar matchhere c text
    else false

/-- Search for `re` at the beginning of the text. -/
def matchhere : List Chr → List Chr → Bool
  | [], _ => true
  | [c], text =>
    if c = dollar then text = []
    else
      match text with
      | [] => false
      | t :: text => if c = period ∨ c = t then matchhere [] text else false
  | c :: d :: re, text =>
    if d = asterisk then matchstar (matchhere re) c text
    else
      match text with
      | [] => false
      | t :: text => if c = period ∨ c = t then matchhere (d :: re) text else false

/-- The loop of `match`, which looks at the empty string too. -/
def matchLoop (re : List Chr) : List Chr → Bool
  | [] => matchhere re []
  | t :: text => if matchhere re (t :: text) then true else matchLoop re text

/-- Whether the text matches the pattern. -/
def «match» : List Chr → List Chr → Bool
  | [], text => matchLoop [] text
  | c :: re, text => if c = caret then matchhere re text else matchLoop (c :: re) text

/-! ## What a pattern means -/

/-- A character, or as many characters as one likes. -/
inductive Piece where
  | one (c : Chr)
  | many (c : Chr)

/-- The characters that `c` stands for. -/
def Stands (c t : Chr) : Prop := c = period ∨ c = t

instance (c t : Chr) : Decidable (Stands c t) := inferInstanceAs (Decidable (_ ∨ _))

/-- The words of one character that `c` stands for. -/
def letters (c : Chr) : Language Chr := { w | ∃ t, Stands c t ∧ w = [t] }

/-- The words that a piece stands for. -/
def Piece.language : Piece → Language Chr
  | one c => letters c
  | many c => KStar.kstar (letters c)

/-- Pieces, with an anchor at either end. -/
structure Regex where
  atStart : Bool
  pieces : List Piece
  atEnd : Bool

/-- The pieces of a pattern, and whether it ends with an anchor. -/
def readPieces : List Chr → List Piece × Bool
  | [] => ([], false)
  | [c] => if c = dollar then ([], true) else ([.one c], false)
  | c :: d :: re =>
    if d = asterisk then (.many c :: (readPieces re).1, (readPieces re).2)
    else (.one c :: (readPieces (d :: re)).1, (readPieces (d :: re)).2)

/-- A leading `'^'` is an anchor, and so is a final `'$'` that is not repeated. -/
def Regex.read : List Chr → Regex
  | [] => ⟨false, [], false⟩
  | c :: re =>
    if c = caret then ⟨true, (readPieces re).1, (readPieces re).2⟩
    else ⟨false, (readPieces (c :: re)).1, (readPieces (c :: re)).2⟩

/-- The words that the pieces stand for one after the other. -/
def words (l : List Piece) : Language Chr := (l.map Piece.language).prod

/-- **The text contains a word of the expression**, at the ends where it is anchored. -/
def Regex.Occurs (r : Regex) (text : List Chr) : Prop :=
  ∃ pre word post, text = pre ++ word ++ post ∧ word ∈ words r.pieces ∧
    (r.atStart = true → pre = []) ∧ (r.atEnd = true → post = [])

/-! ## The matcher is right -/

section Words

variable {c : Chr} {w : List Chr} {l : List Piece}

theorem mem_kstar_letters : w ∈ KStar.kstar (letters c) ↔ ∀ t ∈ w, Stands c t := by
  constructor
  · rintro ⟨ws, rfl, hws⟩ t ht
    obtain ⟨v, hv, htv⟩ := mem_flatten.mp ht
    obtain ⟨t', hstands, rfl⟩ := hws v hv
    rwa [mem_singleton.mp htv]
  · intro h
    refine ⟨w.map fun t => [t], ?_, fun v hv => ?_⟩
    · rw [← flatMap_def, flatMap_singleton']
    · obtain ⟨t, ht, rfl⟩ := mem_map.mp hv
      exact ⟨t, h t ht, rfl⟩

theorem mem_words_nil : w ∈ words [] ↔ w = [] := Language.mem_one w

theorem mem_words_cons {p : Piece} :
    w ∈ words (p :: l) ↔ ∃ u ∈ p.language, ∃ v ∈ words l, u ++ v = w := by
  rw [words, map_cons, prod_cons]
  exact Language.mem_mul

theorem mem_words_one : w ∈ words (.one c :: l) ↔ ∃ t v, Stands c t ∧ v ∈ words l ∧ w = t :: v := by
  rw [mem_words_cons]
  constructor
  · rintro ⟨u, ⟨t, ht, rfl⟩, v, hv, rfl⟩
    exact ⟨t, v, ht, hv, rfl⟩
  · rintro ⟨t, v, ht, hv, rfl⟩
    exact ⟨[t], ⟨t, ht, rfl⟩, v, hv, rfl⟩

end Words

/-- A word of the pieces stands at the beginning of the text, and at its end if it is anchored there. -/
def Begins (r : List Piece × Bool) (text : List Chr) : Prop :=
  ∃ word post, text = word ++ post ∧ word ∈ words r.1 ∧ (r.2 = true → post = [])

/-- The rest of the pattern is found after some characters that `c` stands for. -/
theorem matchstar_iff (here : List Chr → Bool) (c : Chr) (text : List Chr) :
    matchstar here c text = true ↔ ∃ u v, text = u ++ v ∧ (∀ t ∈ u, Stands c t) ∧ here v = true := by
  induction text with
  | nil =>
    rw [matchstar]
    constructor
    · intro h
      exact ⟨[], [], rfl, fun t ht => absurd ht not_mem_nil, h⟩
    · rintro ⟨u, v, heq, -, h⟩
      obtain ⟨-, rfl⟩ := append_eq_nil_iff.mp heq.symm
      exact h
  | cons t text ih =>
    rw [matchstar]
    split
    next hhere =>
      exact iff_of_true rfl ⟨[], _, rfl, fun t ht => absurd ht not_mem_nil, hhere⟩
    next hhere =>
      -- the text does not begin with the rest, so `c` has to stand for `t`
      have hcons : (∃ u v, t :: text = u ++ v ∧ (∀ t ∈ u, Stands c t) ∧ here v = true) ↔
          Stands c t ∧ ∃ u v, text = u ++ v ∧ (∀ t ∈ u, Stands c t) ∧ here v = true := by
        constructor
        · rintro ⟨u, v, heq, hu, hv⟩
          cases u with
          | nil => exact absurd (heq ▸ hv) hhere
          | cons x u =>
            obtain ⟨rfl, rfl⟩ := cons.inj heq
            exact ⟨hu t mem_cons_self, u, v, rfl, fun x hx => hu x (mem_cons_of_mem t hx), hv⟩
        · rintro ⟨ht, u, v, rfl, hu, hv⟩
          exact ⟨t :: u, v, rfl, forall_mem_cons.mpr ⟨ht, hu⟩, hv⟩
      have hstands : (t = c ∨ c = period) ↔ Stands c t := by
        rw [Stands, or_comm, @eq_comm _ t c]
      rw [hcons]
      split
      next ht => rw [ih, and_iff_right (hstands.mp ht)]
      next ht => exact iff_of_false Bool.false_ne_true fun h => ht (hstands.mpr h.1)

/-- One character of the pattern and one of the text. -/
theorem begins_one {c : Chr} {l : List Piece} {b : Bool} {text : List Chr} :
    Begins (.one c :: l, b) text ↔ ∃ t text', text = t :: text' ∧ Stands c t ∧ Begins (l, b) text' := by
  constructor
  · rintro ⟨word, post, rfl, hword, hpost⟩
    obtain ⟨t, v, ht, hv, rfl⟩ := mem_words_one.mp hword
    exact ⟨t, v ++ post, rfl, ht, v, post, rfl, hv, hpost⟩
  · rintro ⟨t, text', rfl, ht, v, post, rfl, hv, hpost⟩
    exact ⟨t :: v, post, rfl, mem_words_one.mpr ⟨t, v, ht, hv, rfl⟩, hpost⟩

/-- What both cases of `matchhere` do with one character. -/
theorem matchone_iff {c : Chr} {l : List Piece} {b : Bool} {here : List Chr → Bool}
    (hhere : ∀ text, here text = true ↔ Begins (l, b) text) (text : List Chr) :
    (match text with
      | [] => false
      | t :: text => if c = period ∨ c = t then here text else false) = true ↔
    Begins (.one c :: l, b) text := by
  rw [begins_one]
  cases text with
  | nil => simp
  | cons t text => simp [Stands, hhere]

/-- **`matchhere` finds the pieces at the beginning of the text.** -/
theorem matchhere_iff (re text : List Chr) : matchhere re text = true ↔ Begins (readPieces re) text := by
  induction re using readPieces.induct generalizing text with
  | case1 =>
    rw [matchhere, readPieces]
    exact iff_of_true rfl ⟨[], text, rfl, mem_words_nil.mpr rfl, nofun⟩
  | case2 =>
    rw [matchhere.eq_def, readPieces]
    dsimp only
    rw [if_pos rfl, if_pos rfl, decide_eq_true_eq]
    constructor
    · rintro rfl
      exact ⟨[], [], rfl, mem_words_nil.mpr rfl, fun _ => rfl⟩
    · rintro ⟨word, post, rfl, hword, hpost⟩
      rw [mem_words_nil.mp hword, hpost rfl, append_nil]
  | case3 c hc =>
    rw [matchhere.eq_def, readPieces]
    dsimp only
    rw [if_neg hc, if_neg hc]
    refine matchone_iff (fun text => ?_) text
    rw [matchhere]
    exact iff_of_true rfl ⟨[], text, rfl, mem_words_nil.mpr rfl, nofun⟩
  | case4 c re ih =>
    rw [matchhere.eq_def, readPieces]
    dsimp only
    rw [if_pos rfl, if_pos rfl, matchstar_iff]
    constructor
    · rintro ⟨u, v, rfl, hu, hv⟩
      obtain ⟨word, post, rfl, hword, hpost⟩ := (ih v).mp hv
      refine ⟨u ++ word, post, (append_assoc ..).symm, ?_, hpost⟩
      exact mem_words_cons.mpr ⟨u, mem_kstar_letters.mpr hu, word, hword, rfl⟩
    · rintro ⟨word, post, rfl, hword, hpost⟩
      obtain ⟨u, hu, v, hv, rfl⟩ := mem_words_cons.mp hword
      exact ⟨u, v ++ post, append_assoc .., mem_kstar_letters.mp hu, (ih _).mpr ⟨v, post, rfl, hv, hpost⟩⟩
  | case5 c d re hd ih =>
    rw [matchhere.eq_def, readPieces]
    dsimp only
    rw [if_neg hd, if_neg hd]
    exact matchone_iff ih text

/-- The loop of `match` tries every place of the text. -/
theorem matchLoop_iff (re text : List Chr) :
    matchLoop re text = true ↔ ∃ pre rest, text = pre ++ rest ∧ matchhere re rest = true := by
  induction text with
  | nil =>
    rw [matchLoop]
    constructor
    · intro h
      exact ⟨[], [], rfl, h⟩
    · rintro ⟨pre, rest, heq, h⟩
      obtain ⟨-, rfl⟩ := append_eq_nil_iff.mp heq.symm
      exact h
  | cons t text ih =>
    rw [matchLoop]
    split
    next hhere => exact iff_of_true rfl ⟨[], _, rfl, hhere⟩
    next hhere =>
      rw [ih]
      constructor
      · rintro ⟨pre, rest, rfl, h⟩
        exact ⟨t :: pre, rest, rfl, h⟩
      · rintro ⟨pre, rest, heq, h⟩
        cases pre with
        | nil => exact absurd (heq ▸ h) hhere
        | cons x pre =>
          obtain ⟨rfl, rfl⟩ := cons.inj heq
          exact ⟨pre, rest, rfl, h⟩

/-- The loop finds the pieces of an expression that is not anchored at the start. -/
theorem matchLoop_iff_occurs (re text : List Chr) : matchLoop re text = true ↔
    Regex.Occurs ⟨false, (readPieces re).1, (readPieces re).2⟩ text := by
  rw [matchLoop_iff]
  constructor
  · rintro ⟨pre, rest, rfl, h⟩
    obtain ⟨word, post, rfl, hword, hpost⟩ := (matchhere_iff re rest).mp h
    exact ⟨pre, word, post, (append_assoc ..).symm, hword, nofun, hpost⟩
  · rintro ⟨pre, word, post, rfl, hword, -, hpost⟩
    exact ⟨pre, word ++ post, append_assoc .., (matchhere_iff re _).mpr ⟨word, post, rfl, hword, hpost⟩⟩

/-- **The matcher is right**: `match` returns 1 if and only if the text contains a word that the pattern
stands for. -/
theorem match_iff_occurs (re text : List Chr) :
    «match» re text = true ↔ (Regex.read re).Occurs text := by
  cases re with
  | nil => exact matchLoop_iff_occurs [] text
  | cons c re =>
    rw [«match», Regex.read]
    split
    · rw [matchhere_iff]
      constructor
      · rintro ⟨word, post, rfl, hword, hpost⟩
        exact ⟨[], word, post, rfl, hword, fun _ => rfl, hpost⟩
      · rintro ⟨pre, word, post, rfl, hword, hpre, hpost⟩
        obtain rfl := hpre rfl
        exact ⟨word, post, rfl, hword, hpost⟩
    · exact matchLoop_iff_occurs (c :: re) text

/-- In `"$*"` the `'$'` is repeated, and in `"^*"` the `'*'` stands for itself. -/
example : «match» [dollar, asterisk, dollar] [dollar] = true ∧ «match» [caret, asterisk] [dollar] = false ∧
    «match» [caret, asterisk] [asterisk] = true := by decide

end Grep
