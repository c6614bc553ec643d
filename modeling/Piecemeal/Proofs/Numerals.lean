import Piecemeal.Proofs.StreamReadings

/-!
# Numerals

A numeral is digits, and perhaps a point with further digits behind it, or none. `Text.number` takes
the longest numeral with which the characters ahead begin, and converts just that: the point and
what follows it are tried as an alternative, so that a point that has not arrived yet is waited for,
and one that never comes costs nothing (`number_takes_longest`).

`Numeral.Longest` is the specification; it does not mention how a numeral is scanned.
-/

namespace Piecemeal

variable {ι : Type} {Γ : ι → Type}

/-- A decimal text: one or more digits, and perhaps a point with any number of digits behind it. -/
structure Numeral where
  whole : List Char
  /-- What stands behind the point, if there is a point. -/
  fraction : Option (List Char)
  whole_ne_nil : whole ≠ []
  isDigit_whole : ∀ c ∈ whole, c.isDigit = true
  isDigit_fraction : ∀ digits ∈ fraction, ∀ c ∈ digits, c.isDigit = true

namespace Numeral

/-- The point and what stands behind it. -/
def tail : Option (List Char) → List Char
  | none => []
  | some digits => '.' :: digits

def text (n : Numeral) : List Char := n.whole ++ tail n.fraction

/-- The characters begin with the text of `n`, which `rest` follows, and with no longer numeral. -/
structure Longest (n : Numeral) (chars rest : List Char) : Prop where
  split : chars = n.text ++ rest
  longest : ∀ m : Numeral, m.text <+: chars → m.text.length ≤ n.text.length

/-- No digit follows the text of `n`, nor a point where it has none. -/
structure Ends (n : Numeral) (rest : List Char) : Prop where
  digit : ∀ c ∈ rest.head?, ¬ c.isDigit = true
  point : n.fraction = none → rest.head? ≠ some '.'

/-- The digits before the point end at the point, or where no digit follows. -/
theorem stop_whole (n : Numeral) {rest : List Char}
    (h : n.fraction = none → ∀ c ∈ rest.head?, ¬ c.isDigit = true) :
    ∀ c ∈ (tail n.fraction ++ rest).head?, ¬ c.isDigit = true := by
  cases hfraction : n.fraction with
  | none => exact h hfraction
  | some digits =>
    rintro c ⟨⟩
    decide

theorem takeWhile_text (n : Numeral) {rest : List Char}
    (h : n.fraction = none → ∀ c ∈ rest.head?, ¬ c.isDigit = true) :
    (n.text ++ rest).takeWhile Char.isDigit = n.whole := by
  rw [text, List.append_assoc]
  exact (Parser.span_of_stop n.isDigit_whole (n.stop_whole h)).1

/-- Where a numeral ends, it is the longest. -/
theorem Ends.longest {n : Numeral} {rest : List Char} (h : n.Ends rest) :
    n.Longest (n.text ++ rest) rest := by
  refine ⟨rfl, ?_⟩
  rintro m ⟨z, hz⟩
  have hwhole := n.takeWhile_text fun _ => h.digit
  cases hm : m.fraction with
  | none =>
    -- all of the shorter form is digits
    have htext : m.text = m.whole := by rw [text, hm, tail, List.append_nil]
    have hrun := (Input.longestRun_takeWhile Char.isDigit (n.text ++ rest)).longest m.whole
      (htext ▸ ⟨z, hz⟩) m.isDigit_whole
    rw [hwhole] at hrun
    rw [htext, text, List.length_append]
    exact Nat.le_add_right_of_le hrun
  | some digits =>
    -- with a point in both, the digits before it are the same
    have hsame : m.whole = n.whole := by
      rw [← hwhole, ← hz, m.takeWhile_text fun hnone => by rw [hm] at hnone; cases hnone]
    have htail : '.' :: (digits ++ z) = tail n.fraction ++ rest := by
      rw [text, text, hsame, hm, List.append_assoc, List.append_assoc] at hz
      exact List.append_cancel_left hz
    cases hn : n.fraction with
    | none =>
      rw [hn, tail, List.nil_append] at htail
      exact absurd (congrArg List.head? htail).symm (h.point hn)
    | some digits' =>
      rw [hn] at htail
      have hdigits : digits ++ z = digits' ++ rest := (List.cons.inj htail).2
      have hrun := (Input.longestRun_takeWhile Char.isDigit (digits' ++ rest)).longest digits
        ⟨z, hdigits⟩ (m.isDigit_fraction digits hm)
      rw [(Parser.span_of_stop (n.isDigit_fraction digits' hn) h.digit).1] at hrun
      rw [text, text, hsame, hm, hn, List.length_append, List.length_append]
      exact Nat.add_le_add_left (Nat.succ_le_succ hrun) _

theorem Longest.functional {n n' : Numeral} {chars rest rest' : List Char}
    (h : n.Longest chars rest) (h' : n'.Longest chars rest') :
    n.text = n'.text ∧ rest = rest' := by
  have hlength : n.text.length = n'.text.length :=
    Nat.le_antisymm (h'.longest n ⟨rest, h.split.symm⟩) (h.longest n' ⟨rest', h'.split.symm⟩)
  exact List.append_inj (h.split.symm.trans h'.split) hlength

theorem Longest.head_isDigit {n : Numeral} {chars rest : List Char} (h : n.Longest chars rest) :
    ∃ c ∈ chars.head?, c.isDigit = true := by
  obtain ⟨c, others, hwhole⟩ := List.exists_cons_of_ne_nil n.whole_ne_nil
  refine ⟨c, ?_, n.isDigit_whole c (hwhole ▸ List.mem_cons_self)⟩
  rw [h.split, text, hwhole]
  rfl

theorem head?_dropWhile_isDigit (chars : List Char) :
    ∀ c ∈ (chars.dropWhile Char.isDigit).head?, ¬ c.isDigit = true := by
  intro c hc
  have h := List.head?_dropWhile_not Char.isDigit chars
  rw [hc] at h
  exact ne_true_of_eq_false h

/-- Characters that begin with a digit begin with a numeral that ends. -/
theorem exists_ends {c : Char} (hc : c.isDigit = true) (chars : List Char) :
    ∃ (n : Numeral) (rest : List Char), n.Ends rest ∧ c :: chars = n.text ++ rest := by
  have hne : (c :: chars).takeWhile Char.isDigit ≠ [] := by
    rw [List.takeWhile_cons_of_pos hc]
    exact List.cons_ne_nil _ _
  have hall : ∀ chars : List Char, ∀ d ∈ chars.takeWhile Char.isDigit, d.isDigit = true :=
    fun _ => List.all_eq_true.mp List.all_takeWhile
  have hstop := head?_dropWhile_isDigit (c :: chars)
  have hsplit := List.takeWhile_append_dropWhile (p := Char.isDigit) (l := c :: chars)
  by_cases hpoint : ((c :: chars).dropWhile Char.isDigit).head? = some '.'
  · obtain ⟨behind, hbehind⟩ := List.head?_eq_some_iff.mp hpoint
    refine ⟨⟨_, some (behind.takeWhile Char.isDigit), hne, hall _, ?_⟩,
      behind.dropWhile Char.isDigit, ⟨head?_dropWhile_isDigit behind, nofun⟩, ?_⟩
    · rintro digits ⟨⟩
      exact hall behind
    · rw [text, tail, List.append_assoc, List.cons_append, List.takeWhile_append_dropWhile,
        ← hbehind, hsplit]
  · refine ⟨⟨_, none, hne, hall _, nofun⟩, _, ⟨hstop, fun _ => hpoint⟩, ?_⟩
    rw [text, tail, List.append_nil, hsplit]

end Numeral

/-! ## Scanning a numeral -/

namespace Parser

open Reading

section Scan

variable {G : Rules Γ Char}

/-- Perhaps a point, and the digits behind it. -/
def pointAndDigits : Parser Γ Char (List Char) :=
  option [] (map ('.' :: ·) (andThen (Text.char (.exactly ".")) (takeWhile Char.isDigit)))

theorem numeral_eq : (Text.numeral : Parser Γ Char _) =
    (takeWhile1 Char.isDigit).bind fun whole => map (whole ++ ·) pointAndDigits := rfl

/-- The point decides: without one, the first alternative fails and leaves nothing behind. -/
theorem makes_pointAndDigits {n : Numeral} {rest : List Char} (h : n.Ends rest) :
    pointAndDigits.Makes G (Numeral.tail n.fraction ++ rest)
      (success (Numeral.tail n.fraction) rest) := by
  cases hfraction : n.fraction with
  | none =>
    obtain ⟨e, hchar⟩ := exists_char_failure (G := G) "." rfl (h.point hfraction)
    have hboth : (andThen (Text.char (.exactly ".")) (takeWhile Char.isDigit)).Makes G rest
        (failure e rest) := hchar.bind_of_failure _
    exact (hboth.map ('.' :: ·)).alt_of_failure (makes_pure [] rest)
  | some digits =>
    have hchar : (Text.char (.exactly ".")).Makes G ('.' :: (digits ++ rest))
        (success '.' (digits ++ rest)) := makes_char (.exactly ".") _
    have hdigits := makes_takeWhile_of_stop (G := G) (n.isDigit_fraction digits hfraction) h.digit
    have hboth : (andThen (Text.char (.exactly ".")) (takeWhile Char.isDigit)).Makes G
        ('.' :: (digits ++ rest)) (success digits rest) := hchar.bind hdigits
    exact (hboth.map ('.' :: ·)).alt _

/-- A numeral is taken up to where it ends. -/
theorem makes_numeral {n : Numeral} {rest : List Char} (h : n.Ends rest) :
    Text.numeral.Makes G (n.text ++ rest) (success n.text rest) := by
  have hwhole := makes_takeWhile1_of_stop (G := G) n.whole_ne_nil n.isDigit_whole
    (n.stop_whole fun _ => h.digit)
  rw [numeral_eq, Numeral.text, List.append_assoc]
  exact hwhole.bind ((makes_pointAndDigits h).map _)

end Scan

/-- What `number` makes of a numeral. -/
theorem makes_number (G : Rules Γ Char) {n : Numeral} {rest : List Char} (h : n.Ends rest) :
    Text.number.Makes G (n.text ++ rest) (success (.ofDecimal n.text) rest) :=
  ((makes_numeral h).map Binary64.ofDecimal).label "number"

/-- What `number` makes of characters that do not begin with a digit. -/
theorem makes_number_of_neg (G : Rules Γ Char) {chars : List Char}
    (h : ∀ c ∈ chars.head?, ¬ c.isDigit = true) :
    Text.number.Makes G chars (failure
      (if chars = [] then ⟨["demand-input", "number"], "not enough input"⟩
        else ⟨["number"], "take-while1"⟩) chars) := by
  have hdigits := makes_takeWhile1 (G := G) Char.isDigit chars
  cases chars with
  | nil => exact ((hdigits.bind_of_failure _).map _).label _
  | cons c rest =>
    rw [run, if_neg (h c rfl)] at hdigits
    exact ((hdigits.bind_of_failure _).map _).label _

open Input in
/-- **A number is the longest numeral ahead.** Let `s` be any state, and let the stream go on with
any chunks and then end, or with nothing if `s` knows of the end. However this is delivered,
`number` comes to an end. If a digit is ahead, it succeeds with the value of the longest numeral
with which the characters ahead begin, and just those behind that numeral are still ahead: the text
that is converted, which `numeral` alone takes off the same stream, is the text of that numeral. If
no digit is ahead, it fails and all characters are still ahead: there are none and one was demanded,
or the first of them is no digit. -/
theorem number_takes_longest (G : Rules Γ Char) (s : Input Char) (chunks : List (List Char)) :
    ∃ k ended o, Text.number.Takes G s chunks k ended o ∧
      ((∃ c ∈ (s.outlook chunks).head?, c.isDigit = true) → ∃ (s' : Input Char) (n : Numeral),
        o = .success s' (.ofDecimal n.text) ∧
        Text.numeral.Takes G s chunks k ended (.success s' n.text) ∧
        n.Longest (s.outlook chunks) (s'.ahead ((s.future chunks).drop k))) ∧
      ((¬ ∃ c ∈ (s.outlook chunks).head?, c.isDigit = true) → ∃ s' e, o = .failure s' e ∧
        s'.ahead ((s.future chunks).drop k) = s.outlook chunks ∧
        e = if s.outlook chunks = [] then ⟨["demand-input", "number"], "not enough input"⟩
          else ⟨["number"], "take-while1"⟩) := by
  by_cases hdigit : ∃ c ∈ (s.outlook chunks).head?, c.isDigit = true
  · obtain ⟨c, hhead, hc⟩ := hdigit
    obtain ⟨rest, hrest⟩ : ∃ rest, s.outlook chunks = c :: rest :=
      List.head?_eq_some_iff.mp hhead
    obtain ⟨n, behind, hends, hsplit⟩ := Numeral.exists_ends hc rest
    obtain ⟨s', left, hnumeral, hahead⟩ := makes_numeral (G := G) hends s _
      (s.sound_future chunks) (hrest.trans hsplit)
    have hnumber : Text.number.Halts true G s (s.future chunks)
        (.done (.success s' (.ofDecimal n.text)) left) :=
      halts_label "number" (halts_map hnumeral Binary64.ofDecimal)
    obtain ⟨k, hle, hleft, htext⟩ := exists_takes_of_halts hnumeral
    obtain ⟨k', hle', hleft', htakes⟩ := exists_takes_of_halts hnumber
    -- both have taken what is not left
    obtain rfl : k' = k := by
      have hlength := congrArg List.length (hleft.symm.trans hleft')
      rw [List.length_drop, List.length_drop] at hlength
      omega
    refine ⟨k', _, _, htakes, fun _ => ⟨s', n, rfl, htext, ?_⟩, fun hnone => ?_⟩
    · rw [← hleft, hahead, hrest, hsplit]
      exact hends.longest
    · exact absurd ⟨c, hhead, hc⟩ hnone
  · have hnone : ∀ c ∈ (s.outlook chunks).head?, ¬ c.isDigit = true :=
      fun c hhead hc => hdigit ⟨c, hhead, hc⟩
    obtain ⟨k, ended, s', htakes, hahead⟩ := (makes_number_of_neg G hnone).exists_takes
    exact ⟨k, ended, _, htakes, fun h => absurd h hdigit, fun _ => ⟨s', _, rfl, hahead, rfl⟩⟩

-- The point and the digits behind it come in other chunks than the digits before it.
example : ((Text.number : Parser Empty.elim Char _).parseFed nofun 40
    ['1'] [['2'], [], ['.'], ['5', 'x']]).showing =
      some (.accepted (.ofDecimal ['1', '2', '.', '5']) ['x']) := by rfl

end Parser

end Piecemeal
