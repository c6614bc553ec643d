import Piecemeal.Proofs.Decoding
import Piecemeal.Proofs.StreamReadings

/-!
# Lines

A stream of records is decoded as it was encoded. If a parser takes the encoding of each record off
the front of whatever follows it, then a decoder finds just the records that were encoded, in their
order, and comes to the end that the tokens behind them lead to (`Decoder.decoded_of_records`,
`records_flatMap`). Where the chunks are cut does not matter, since what the parser makes of the
tokens does not depend on it.

Lines are such records. The end of a line is the only token that decides a record, and it may arrive
alone, or with many records behind it; a last line without it is missed at the end of the stream
(`lines_round_trip`).
-/

namespace Piecemeal

variable {ι : Type} {Γ : ι → Type} {τ α : Type}

/-! ## Record after record -/

/-- The values of the records into which the tokens are divided, if `R` says how one record is read,
and the rejection with which this ends before the tokens do. -/
inductive Records (R : List τ → Reading τ α → Prop) :
    List τ → List α → Option (Rejection τ) → Prop
  | nil : Records R [] [] none
  | record {tokens rest : List τ} {value : α} {values : List α} {ending : Option (Rejection τ)}
      (hrecord : R tokens (.success value rest)) (hless : rest.length < tokens.length)
      (hrest : Records R rest values ending) : Records R tokens (value :: values) ending
  | rejected {tokens rest : List τ} {e : Failure} (hne : tokens ≠ [])
      (hrecord : R tokens (.failure e rest)) : Records R tokens [] (some (.ofFailure e rest))

/-- Encoded records are taken off one by one. -/
theorem records_flatMap {R : List τ → Reading τ α → Prop} {encode : α → List τ} {values : List α}
    (hencode : ∀ value ∈ values, encode value ≠ [] ∧
      ∀ rest, R (encode value ++ rest) (.success value rest))
    {tail : List τ} {ending : Option (Rejection τ)} (htail : Records R tail [] ending) :
    Records R (values.flatMap encode ++ tail) values ending := by
  induction values with
  | nil => exact htail
  | cons value values ih =>
    obtain ⟨hne, hvalue⟩ := hencode value List.mem_cons_self
    have hpos := List.length_pos_iff.mpr hne
    rw [List.flatMap_cons, List.append_assoc]
    refine .record (hvalue _) ?_ (ih fun v hv => hencode v (List.mem_cons_of_mem _ hv))
    simp only [List.length_append]
    omega

namespace Decoder

open Piecemeal.Parser

variable {G : Rules Γ τ} {p : Parser Γ τ α}

/-- What a decoder comes to in one turn, if it is known what its parser makes of the tokens. -/
theorem decoded_of_makes {tokens : List τ} {r : Reading τ α} (h : p.Makes G tokens r)
    (hne : tokens ≠ []) (closable : Bool) {d : Decoder τ} {chunks : List (List τ)}
    (hd : d.Faces chunks tokens) :
    ∃ s left, (r.leaving s).input.Sound true left ∧ s.ahead left = r.rest ∧
      ∃ least, ∀ m, least ≤ m → Event.decoded chunks (d.events G m p closable none) =
        ((r.leaving s).turn tokens.length left).collect left fun next =>
          Event.decoded left (next.events G m p closable none) := by
  obtain ⟨s, chunks', hsound, hahead, hturn⟩ := turn_eq G p hd hne
  obtain ⟨s', left, hhalts, hrest⟩ := h s chunks' hsound hahead
  refine ⟨s', left, sound_of_halts hsound hhalts, hrest, ?_⟩
  obtain ⟨least, hrun⟩ := hhalts
  refine ⟨least, fun m hm => ?_⟩
  obtain ⟨taken, ended, htaken, ht⟩ := (hturn m).1 _ left (hrun m hm)
  rw [decoded_events closable chunks ht, ← htaken]

/-- A decoder finds the records into which its parser divides the tokens. -/
theorem decoded_of_records {tokens : List τ} {values : List α} {ending : Option (Rejection τ)}
    (h : Records (p.Makes G) tokens values ending) (closable : Bool) {d : Decoder τ}
    {chunks : List (List τ)} (hd : d.Faces chunks tokens) :
    ∃ least, ∀ m, least ≤ m →
      Event.decoded chunks (d.events G m p closable none) = some (values, ending) := by
  induction h generalizing d chunks with
  | nil => exact ⟨0, fun m _ => decoded_of_nil hd m closable⟩
  | @record tokens rest value values ending hrecord hless _ ih =>
    have hne : tokens ≠ [] := List.ne_nil_of_length_pos (Nat.zero_lt_of_lt hless)
    obtain ⟨s, left, hsound, rfl, least, hturn⟩ := decoded_of_makes hrecord hne closable hd
    have hnext : (⟨s.remaining, s.closed, left.map .chunk⟩ : Decoder τ).Faces left
        (s.ahead left) := ⟨rfl, fun hclosed => (hsound hclosed).2, rfl⟩
    obtain ⟨least', hfurther⟩ := ih hnext
    refine ⟨max least least', fun m hm => ?_⟩
    rw [hturn m (by omega), Reading.leaving, Outcome.turn, if_neg (Nat.not_le_of_lt hless),
      Turn.collect, hfurther m (by omega), Option.map_some]
  | @rejected tokens rest e hne hrecord =>
    obtain ⟨s, left, -, rfl, least, hturn⟩ := decoded_of_makes hrecord hne closable hd
    exact ⟨least, hturn⟩

end Decoder

namespace Event

variable {chunks : List (List τ)} {log : List (Event τ α)} {values : List α}

/-- A pass with this log gives the consumer these records, in this order, and ends with `last`. -/
structure Gives (log : List (Event τ α)) (values : List α) (last : Event τ α) : Prop where
  values_eq : log.filterMap value? = values
  last_eq : log.getLast? = some last

/-- What a log shows is read off its last event and its records. -/
theorem exists_last_of_decoded {ending : Option (Rejection τ)}
    (h : decoded chunks log = some (values, ending)) :
    log.filterMap value? = values ∧ ∃ last shown, log.getLast? = some last ∧
      ending? last = some shown ∧
      shown.map (·.followedBy (chunks.drop (log.countP isNext)).flatten) = ending := by
  obtain ⟨shown, hshown, hfound⟩ := Option.map_eq_some_iff.mp h
  obtain ⟨last, hlast, hending⟩ := Option.bind_eq_some_iff.mp hshown
  obtain ⟨hvalues, hmap⟩ := Prod.mk.inj hfound
  exact ⟨hvalues, last, shown, hlast, hending, hmap⟩

theorem gives_of_decoded_none (h : decoded chunks log = some (values, none)) :
    Gives log values .stopped := by
  obtain ⟨hvalues, last, shown, hlast, hending, hmap⟩ := exists_last_of_decoded h
  obtain rfl := Option.map_eq_none_iff.mp hmap
  refine ⟨hvalues, hlast.trans ?_⟩
  match last, hending with
  | .stopped, _ => rfl

/-- A rejection behind which nothing is left is raised as it is. -/
theorem gives_of_decoded_some {report : Rejection τ} (hrest : report.rest = [])
    (h : decoded chunks log = some (values, some report)) :
    Gives log values (.raised (.rejected report)) := by
  obtain ⟨hvalues, last, shown, hlast, hending, hmap⟩ := exists_last_of_decoded h
  obtain ⟨raised, rfl, hreport⟩ := Option.map_eq_some_iff.mp hmap
  have hsame : raised = report := by
    subst hreport
    obtain ⟨-, hleft⟩ := List.append_eq_nil_iff.mp hrest
    rw [Rejection.followedBy, hleft, List.append_nil]
  have hraised : last = .raised (.rejected raised) := by
    match last, hending with
    | .raised (.rejected _), rfl => rfl
  exact ⟨hvalues, by rw [hlast, hraised, hsame]⟩

end Event

/-! ## Text by lines -/

namespace Text

open Piecemeal.Parser

/-- The rest of a line, and the line feed at its end. -/
def textLine : Parser Γ Char String :=
  (map (fun cs => join (cs.map Char.toString)) (takeTill (· == '\n'))).followedBy
    (char (.exactly "\n"))

/-- The lines of a text, each with its line feed. -/
def encodeLines (lines : List String) : List Char := lines.flatMap fun line => line.toList ++ ['\n']

end Text

namespace Parser

open Reading

variable {G : Rules Γ Char}

theorem makes_takeTill_newline {run rest : List Char} (hrun : '\n' ∉ run)
    (hrest : ∀ c ∈ rest.head?, c = '\n') :
    (takeTill (· == '\n')).Makes G (run ++ rest) (success run rest) := by
  refine makes_takeWhile_of_stop (fun c hc => ?_) (fun c hc => ?_)
  · rw [Bool.not_eq_true', beq_eq_false_iff_ne]
    rintro rfl
    exact hrun hc
  · obtain rfl := hrest c hc
    decide

theorem makes_textLine {line : String} (hline : '\n' ∉ line.toList) (rest : List Char) :
    Text.textLine.Makes G ((line.toList ++ ['\n']) ++ rest) (success line rest) := by
  have hchars : (takeTill (· == '\n')).Makes G (line.toList ++ '\n' :: rest)
      (success line.toList ('\n' :: rest)) :=
    makes_takeTill_newline hline fun c hc => (Option.some.inj hc).symm
  have htext := hchars.map fun cs => Text.join (cs.map Char.toString)
  rw [Reading.map, join_toString, String.ofList_toList] at htext
  have hchar : (Text.char (.exactly "\n")).Makes G ('\n' :: rest) (success '\n' rest) :=
    makes_char (.exactly "\n") ('\n' :: rest)
  rw [List.append_assoc, List.singleton_append]
  exact htext.bind (hchar.map fun _ => line)

/-- Without a line feed all is read, and one is demanded. -/
theorem makes_textLine_of_notMem {tail : List Char} (htail : '\n' ∉ tail) :
    Text.textLine.Makes G tail
      (failure ⟨["demand-input", "char \"\\n\""], "not enough input"⟩ []) := by
  have hchars : (takeTill (· == '\n')).Makes G (tail ++ []) (success tail []) :=
    makes_takeTill_newline htail nofun
  rw [List.append_nil] at hchars
  exact (hchars.map _).bind ((makes_char (.exactly "\n") []).map _)

open Text in
/-- **Lines are decoded as they were encoded.** Let the chunks hold the characters of some lines,
which may be empty but have no line feed in them, each with a line feed behind it. However the
chunks are cut, a pass over them gives just those lines in their order and stops normally. If
characters without a line feed follow the last one, the pass gives the same lines and then raises
the rejection that says that there was not enough input, with nothing left. -/
theorem lines_round_trip (G : Rules Γ Char) (closable : Bool) (lines : List String)
    (hlines : ∀ line ∈ lines, '\n' ∉ line.toList) (chunks : List (List Char)) :
    (chunks.flatten = encodeLines lines → ∃ least, ∀ m, least ≤ m →
      Event.Gives (textLine.decodeStream G m closable none (chunks.map .chunk)) lines .stopped) ∧
    ∀ tail, tail ≠ [] → '\n' ∉ tail → chunks.flatten = encodeLines lines ++ tail →
      ∃ least, ∀ m, least ≤ m →
        Event.Gives (textLine.decodeStream G m closable none (chunks.map .chunk)) lines
          (.raised (.rejected ⟨["demand-input", "char \"\\n\""], "not enough input", []⟩)) := by
  have hencode : ∀ line ∈ lines, line.toList ++ ['\n'] ≠ [] ∧ ∀ rest,
      textLine.Makes G (line.toList ++ ['\n'] ++ rest) (success line rest) := by
    intro line hline
    exact ⟨List.append_ne_nil_of_right_ne_nil _ (List.cons_ne_nil _ _),
      makes_textLine (hlines line hline)⟩
  have hfaces := Decoder.faces_ofSource chunks
  constructor
  · intro hcut
    have hrecords := records_flatMap hencode Records.nil
    rw [List.append_nil, ← encodeLines, ← hcut] at hrecords
    obtain ⟨least, hdecoded⟩ := Decoder.decoded_of_records hrecords closable hfaces
    exact ⟨least, fun m hm => Event.gives_of_decoded_none (hdecoded m hm)⟩
  · intro tail hne htail hcut
    have hrecords := records_flatMap hencode (.rejected hne (makes_textLine_of_notMem htail))
    rw [← encodeLines, ← hcut] at hrecords
    obtain ⟨least, hdecoded⟩ := Decoder.decoded_of_records hrecords closable hfaces
    exact ⟨least, fun m hm => Event.gives_of_decoded_some rfl (hdecoded m hm)⟩

open Text in
/-- One line feed ends a chunk, one comes alone and one is behind an empty line; then a line is cut
off by the end of the stream. -/
theorem lines_round_trip_cut : ∃ least, ∀ m, least ≤ m →
    Event.Gives ((textLine : Parser Empty.elim Char String).decodeStream nofun m true none
        ([['a', 'b', '\n', '\n'], [], ['c'], ['\n'], ['d']].map .chunk))
      ["ab", "", "c"]
      (.raised (.rejected ⟨["demand-input", "char \"\\n\""], "not enough input", []⟩)) :=
  (lines_round_trip (nofun : Rules Empty.elim Char) true ["ab", "", "c"] (by decide)
    [['a', 'b', '\n', '\n'], [], ['c'], ['\n'], ['d']]).2 ['d'] (by decide) (by decide) rfl

end Parser

end Piecemeal
