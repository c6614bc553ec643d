import Piecemeal.Parser.Scan
import Piecemeal.Parser.Token
import Piecemeal.Proofs.Record

/-!
# No token is lost

A parser that does not use `put` as such only takes tokens from the front of its input. So wherever
its run waits or is over, what remains is a suffix of the input it was given followed by what has
arrived since (`remaining_suffix`): no token is lost behind the ones consumed, and none is
duplicated, reordered or invented, whatever backtracking there was.

The parsers for tokens and runs do use `put`, with a suffix of the input they have just looked at.
To follow the input from `get` to `put`, `Conserves` adds to the law about what remains a property
`Φ` of the value and the state of a success.
-/

namespace Piecemeal

variable {ι : Type} {Γ : ι → Type} {τ α β σ : Type}

/-- The tokens of `s'` are the last ones of those in `s` and those that arrived since. -/
def Input.Trails (s : Input τ) (replies : List (Reply τ)) (s' : Input τ) : Prop :=
  s'.remaining.toList <:+ s.remaining.toList ++ delivered replies

namespace Input

theorem trails_idle {s : Input τ} {idle : List (Reply τ)} (h : Idle idle) : s.Trails idle s := by
  simpa only [Trails, h.1, List.append_nil] using List.suffix_refl _

theorem trails_refl (s : Input τ) : s.Trails [] s := trails_idle idle_nil

theorem Trails.trans {s s' s'' : Input τ} {first second : List (Reply τ)} (h : s.Trails first s')
    (h' : s'.Trails second s'') : s.Trails (first ++ second) s'' := by
  rw [Trails, delivered_append, ← List.append_assoc]
  obtain ⟨consumed, hconsumed⟩ := h
  refine List.IsSuffix.trans h' ⟨consumed, ?_⟩
  rw [← List.append_assoc, hconsumed]

theorem trails_after (s : Input τ) (replies : List (Reply τ)) :
    s.Trails replies (s.after replies) := by
  simpa only [Trails, after, Buffer.toList_append, Buffer.toList_ofList] using
    List.suffix_refl _

/-- A parser's law: the tokens trail, and the record is as it must be to go back. -/
theorem invariant_trails : Invariant (Trails (τ := τ))
    fun s replies s' => s.Trails replies s' ∧ Recorded s replies s' where
  refl s := ⟨s.trails_refl, invariant_recorded.refl s⟩
  trans h h' := ⟨h.1.trans h'.1, h.2.trans h'.2⟩
  wait h h' := h.1.trans h'
  wait_checkpoint h := h
  keep h := ⟨h.1, h.2.keep⟩
  rewind {s _ replies} h := h.2.rewind_eq_after ▸ ⟨s.trails_after replies, recorded_after s replies⟩

end Input

namespace Parser

open Run

/-- Whatever happens in a run of `p` from `s`, what remains trails, and a success has `Φ`. -/
def Conserves (G : Rules Γ τ) (p : Parser Γ τ α) (s : Input τ) (Φ : Input τ → α → Prop) : Prop :=
  ∀ budget, (p.outcome G budget s).Meets s.Trails fun replies o =>
    s.Trails replies o.input ∧ ∀ s' a, o = .success s' a → Φ s' a

section Rules

variable {G : Rules Γ τ} {s : Input τ} {Φ : Input τ → α → Prop}

theorem Conserves.mono {p : Parser Γ τ α} {Ψ : Input τ → α → Prop} (hp : p.Conserves G s Ψ)
    (h : ∀ s' a, Ψ s' a → Φ s' a) : p.Conserves G s Φ := fun budget =>
  meets_mono (hp budget) (fun _ _ hi => hi) fun _ _ ho =>
    ⟨ho.1, fun s' a hsuccess => h s' a (ho.2 s' a hsuccess)⟩

theorem conserves_pure {a : α} (h : Φ s a) : (pure a).Conserves G s Φ := by
  intro budget
  cases budget with
  | zero => exact meets_exhausted
  | succ budget =>
    refine meets_later (meets_done ⟨s.trails_refl, ?_⟩)
    rintro s' a' ⟨⟩
    exact h

theorem conserves_fail (message : String) : (fail message).Conserves G s Φ := by
  intro budget
  cases budget with
  | zero => exact meets_exhausted
  | succ budget => exact meets_later (meets_done ⟨s.trails_refl, nofun⟩)

theorem conserves_get : get.Conserves G s fun s' input => input = s'.remaining := by
  intro budget
  cases budget with
  | zero => exact meets_exhausted
  | succ budget =>
    refine meets_later (meets_done ⟨s.trails_refl, ?_⟩)
    rintro s' a' ⟨⟩
    rfl

theorem conserves_put {tokens : Buffer τ} (h : tokens.toList <:+ s.remaining.toList) :
    (put tokens).Conserves G s fun _ _ => True := by
  intro budget
  cases budget with
  | zero => exact meets_exhausted
  | succ budget =>
    refine meets_later (meets_done ⟨?_, fun _ _ _ => trivial⟩)
    rw [Input.Trails, delivered_nil, List.append_nil]
    exact h

theorem Conserves.bind {p : Parser Γ τ β} {f : β → Parser Γ τ α} {Ψ : Input τ → β → Prop}
    (hp : p.Conserves G s Ψ) (hf : ∀ s' b, Ψ s' b → (f b).Conserves G s' Φ) :
    (p.bind f).Conserves G s Φ := by
  intro budget
  cases budget with
  | zero => exact meets_exhausted
  | succ budget =>
    rw [outcome_bind]
    refine meets_bind (hp budget) fun first o ⟨htrails, ho⟩ => ?_
    cases o with
    | failure s' e => exact meets_done ⟨(List.append_nil first).symm ▸ htrails, nofun⟩
    | success s' b =>
      refine meets_later (meets_mono (hf s' b (ho s' b rfl) budget) ?_ ?_)
      · exact fun second input => htrails.trans
      · exact fun second o h => ⟨htrails.trans h.1, h.2⟩

theorem conserves_loop {body : σ → Parser Γ τ (σ ⊕ α)}
    (h : ∀ s state, (body state).Conserves G s fun s' turn => ∀ a, turn = .inr a → Φ s' a)
    (start : σ) : (loop start body).Conserves G s Φ := by
  intro budget
  induction budget generalizing s start with
  | zero => exact meets_exhausted
  | succ budget ih =>
    rw [outcome_loop]
    refine meets_bind (h s start budget) fun first o ⟨htrails, ho⟩ => ?_
    cases o with
    | failure s' e => exact meets_done ⟨(List.append_nil first).symm ▸ htrails, nofun⟩
    | success s' turn =>
      cases turn with
      | inl next =>
        refine meets_later (meets_mono (ih next) ?_ ?_)
        · exact fun second input => htrails.trans
        · exact fun second o h => ⟨htrails.trans h.1, h.2⟩
      | inr a =>
        refine meets_later (meets_done ⟨(List.append_nil first).symm ▸ htrails, ?_⟩)
        rintro s'' a' ⟨⟩
        exact ho _ _ rfl a rfl

theorem Conserves.total {p : Parser Γ τ α} (hp : p.Conserves G s Φ) : p.total.Conserves G s Φ := by
  intro budget
  cases budget with
  | zero => exact meets_exhausted
  | succ budget => exact hp budget

theorem conserves_demandInput : demandInput.Conserves G s fun _ _ => True := by
  intro budget
  refine meets_mono (meets_demandInput G budget s) ?_ ?_
  · rintro replies i ⟨hidle, rfl⟩
    exact Input.trails_idle hidle
  · intro replies o h
    exact ⟨h ▸ s.trails_after replies, fun _ _ _ => trivial⟩

theorem conserves_wantInput : wantInput.Conserves G s fun _ _ => True := by
  intro budget
  refine meets_mono (meets_wantInput G budget s) ?_ ?_
  · rintro replies i ⟨hidle, rfl⟩
    exact Input.trails_idle hidle
  · intro replies o h
    exact ⟨h ▸ s.trails_after replies, fun _ _ _ => trivial⟩

theorem conserves_ensure (n : Int) :
    (ensure n).Conserves G s fun s' input => input = s'.remaining := by
  refine conserves_loop (fun s _ => conserves_get.bind fun s' input hinput => ?_) ()
  split
  · refine conserves_pure ?_
    rintro a ⟨⟩
    exact hinput
  · exact conserves_demandInput.bind fun _ _ _ => conserves_pure nofun

theorem suffix_of_uncons? {b rest : Buffer τ} {t : τ} (h : b.uncons? = some (t, rest)) :
    rest.toList <:+ b.toList := by
  rw [Buffer.uncons?_eq] at h
  split at h
  · cases h
  · next htokens =>
    cases h
    rw [htokens, Buffer.toList_ofList]
    exact List.suffix_cons _ _

theorem conserves_satisfy (p : τ → Bool) : (satisfy p).Conserves G s fun _ _ => True := by
  refine (conserves_ensure 1).bind ?_
  rintro s' input rfl
  split
  · next t rest h =>
    split
    · exact (conserves_put (suffix_of_uncons? h)).bind fun _ _ _ => conserves_pure trivial
    · exact conserves_fail _
  · exact conserves_fail _

theorem conserves_skip (p : τ → Bool) : (skip p).Conserves G s fun _ _ => True := by
  refine (conserves_ensure 1).bind ?_
  rintro s' input rfl
  split
  · next t rest h =>
    split
    · exact conserves_put (suffix_of_uncons? h)
    · exact conserves_fail _
  · exact conserves_fail _

theorem conserves_takeWith (n : Int) (p : List τ → Bool) :
    (takeWith n p).Conserves G s fun _ _ => True := by
  refine (conserves_ensure n).bind ?_
  rintro s' input rfl
  rw [Buffer.splitAt_eq]
  dsimp only
  split
  · refine (conserves_put ?_).bind fun _ _ _ => conserves_pure trivial
    rw [Buffer.toList_ofList]
    exact List.drop_suffix _ _
  · exact conserves_fail _

theorem suffix_of_span (p : τ → Bool) (b : Buffer τ) : (b.span p).2.toList <:+ b.toList := by
  rw [Buffer.span_eq, Buffer.toList_ofList]
  exact List.dropWhile_suffix p

theorem conserves_scanTurn (p : τ → Bool) (next : σ → List τ → σ) (found : σ) :
    (scanTurn p next found).Conserves G s fun _ _ => True := by
  refine conserves_get.bind ?_
  rintro s' input rfl
  refine (conserves_put (suffix_of_span p s'.remaining)).bind fun s' _ _ => ?_
  split
  · refine conserves_wantInput.bind fun s' more _ => ?_
    split
    · exact conserves_pure trivial
    · exact conserves_pure trivial
  · exact conserves_pure trivial

theorem conserves_scan (p : τ → Bool) (next : σ → List τ → σ) (start : σ) :
    (loop start (scanTurn p next)).Conserves G s fun _ _ => True := by
  refine conserves_loop (fun s found => ?_) start
  exact (conserves_scanTurn p next found).mono fun _ _ _ _ _ => trivial

theorem conserves_skipWhile (p : τ → Bool) : (skipWhile p).Conserves G s fun _ _ => True := by
  rw [skipWhile_eq]
  exact (conserves_scan p _ _).total

theorem conserves_takeWhile (p : τ → Bool) : (takeWhile p).Conserves G s fun _ _ => True := by
  rw [takeWhile_eq]
  exact ((conserves_scan p _ _).bind fun _ _ _ => conserves_pure trivial).total

theorem conserves_takeWhile1 (p : τ → Bool) : (takeWhile1 p).Conserves G s fun _ _ => True := by
  rw [takeWhile1_eq]
  refine conserves_get.bind fun s' buffered _ => ?_
  refine Conserves.bind (Ψ := fun _ _ => True) ?_ fun s' _ _ => conserves_get.bind ?_
  · split
    · exact conserves_demandInput
    · exact conserves_pure trivial
  · rintro s' input rfl
    split
    · exact conserves_fail _
    · refine (conserves_put (suffix_of_span p s'.remaining)).bind fun s' _ _ => ?_
      split
      · exact (conserves_takeWhile p).bind fun _ _ _ => conserves_pure trivial
      · exact conserves_pure trivial

theorem conserves_takeRest : (takeRest : Parser Γ τ _).Conserves G s fun _ _ => True := by
  refine .total (.bind (Ψ := fun _ _ => True) (conserves_loop (fun s chunks => ?_) _)
    fun _ _ _ => conserves_pure trivial)
  refine conserves_wantInput.bind fun s' more _ => ?_
  split
  · refine conserves_get.bind fun s' input _ => (conserves_put ?_).bind fun _ _ _ => ?_
    · rw [Buffer.toList_empty]
      exact List.nil_suffix
    · exact conserves_pure fun _ _ => trivial
  · exact conserves_pure fun _ _ => trivial

end Rules

theorem conserves_of_putFreeLeaf {G : Rules Γ τ} {p : Parser Γ τ α} (hp : PutFreeLeaf α p)
    (s : Input τ) : p.Conserves G s fun _ _ => True := by
  cases hp with
  | get => exact conserves_get.mono fun _ _ _ => trivial
  | demandInput => exact conserves_demandInput
  | wantInput => exact conserves_wantInput
  | satisfy p => exact conserves_satisfy p
  | skip p => exact conserves_skip p
  | takeWith n p => exact conserves_takeWith n p
  | skipWhile p => exact conserves_skipWhile p
  | takeWhile p => exact conserves_takeWhile p
  | takeWhile1 p => exact conserves_takeWhile1 p
  | takeRest => exact conserves_takeRest

theorem obeys_trails {G : Rules Γ τ} (hG : ∀ i, PutFree (G i)) {p : Parser Γ τ α} (hp : PutFree p)
    (budget : Nat) (s : Input τ) :
    p.Obeys Input.Trails (fun s replies s' => s.Trails replies s' ∧ Recorded s replies s')
      G budget s := by
  refine Built.meets Input.invariant_trails hG (fun hleaf budget s => ?_) hp budget s
  have h := conserves_of_putFreeLeaf (G := G) hleaf s budget
  exact ⟨h.waits, fun hr => ⟨(h.ends hr).1, recorded_of_reaches hr⟩⟩

/-- **Conservation of tokens.** In a run of a parser that does not use `put` as such, started in any
state and answered in any way, what remains is a suffix of the tokens that were there and those that
have arrived, wherever the run is over and wherever it waits. -/
theorem remaining_suffix {G : Rules Γ τ} (hG : ∀ i, PutFree (G i)) {p : Parser Γ τ α}
    (hp : PutFree p) (budget : Nat) (s : Input τ) (replies : List (Reply τ)) :
    (∀ o, (p.outcome G budget s).Reaches replies (.done o) →
      o.input.remaining.toList <:+ s.remaining.toList ++ delivered replies) ∧
    ∀ input onEnd onChunk, (p.outcome G budget s).Reaches replies (.await input onEnd onChunk) →
      input.remaining.toList <:+ s.remaining.toList ++ delivered replies := by
  have h := obeys_trails hG hp budget s
  exact ⟨fun o hr => (h.ends hr).1, fun input onEnd onChunk hr => h.waits hr⟩

/-- A one and a nine, or any token. -/
def oneNine : Parser Empty.elim Nat Nat :=
  ((satisfy (· == 1)).andThen (satisfy (· == 9))).alt anyToken

/-- Both chunks arrive inside the alternative that fails, and the first token of them is consumed by
the other one. -/
theorem remaining_suffix_oneNine : PutFree oneNine ∧
    ∃ o, (oneNine.outcome nofun 12 ⟨.empty, false, none⟩).Reaches
        [.chunk [1], .handBack, .chunk [2, 3]] (.done o) ∧
      o.input.remaining.toList = [2, 3] ∧ o.input.remaining.toList <:+ [] ++ [1, 2, 3] := by
  have hfree : PutFree oneNine :=
    .alt (.andThen (.leaf (.satisfy _)) (.leaf (.satisfy _))) (.leaf (.satisfy _))
  obtain ⟨o, hpath, hremaining⟩ : ∃ o,
      (oneNine.outcome nofun 12 ⟨.empty, false, none⟩).Reaches
        [.chunk [1], .handBack, .chunk [2, 3]] (.done o) ∧ o.input.remaining.toList = [2, 3] := by
    refine ⟨?o, ?path, ?remaining⟩
    case path =>
      repeat' first
        | refine .later ?_
        | refine .chunk _ ?_
        | refine .handBack ?_
        | exact .here _
    rfl
  exact ⟨hfree, o, hpath, hremaining, (remaining_suffix nofun hfree 12 _ _).1 o hpath⟩

end Parser

end Piecemeal
