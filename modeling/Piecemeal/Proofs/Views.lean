import Piecemeal.Proofs.Asking

/-!
# Leaves that cannot tell where the stream is cut

A parser *views* the stream when it always stops, and what it shows then is a function of the tokens
ahead (`Parser.Views`): how many of them have arrived and how the others are cut makes no
difference. Every seamless leaf does (`exists_views`), because it fills the input until it can
decide (`views_of_fill`), and what it decides on is then what is ahead.
-/

namespace Piecemeal.Parser

open Input

variable {ι : Type} {Γ : ι → Type} {τ α β : Type}

/-- The parser stops, and shows this. -/
def Shows (ends : Bool) (G : Rules Γ τ) (p : Parser Γ τ α) (s : Input τ) (chunks : List (List τ))
    (shown : Showing τ α) : Prop :=
  ∃ halt, p.Halts ends G s chunks halt ∧ halt.showing = shown

/-- What the parser shows is a function of the tokens ahead. -/
def Views (ends : Bool) (G : Rules Γ τ) (p : Parser Γ τ α) (view : List τ → Showing τ α) : Prop :=
  ∀ s chunks, s.Sound ends chunks → p.Shows ends G s chunks (view (s.ahead chunks))

/-- Where the tokens ahead do not suffice, the end of the stream decides, or more is waited for. -/
def dry (ends : Bool) (tokens : List τ) (atEnd : Showing τ α) : Showing τ α :=
  if ends then atEnd else .waiting tokens false

section Rules

variable {ends : Bool} {G : Rules Γ τ}

/-- A parser that fills the input views the stream, if what it shows then is what the tokens ahead
show: because they have arrived, as far as it matters, or because there are no more. -/
theorem views_of_fill {p : Parser Γ τ α} (enough : List τ → Bool) {view : List τ → Showing τ α}
    (hdone : ∀ s chunks s' left, s.fill enough ends chunks = .done s' left →
      enough s'.remaining.toList = true ∨ ends = true ∧ left = [] →
      p.Shows ends G s chunks (view (s'.ahead left)))
    (hwaiting : ∀ s chunks s', s.fill enough ends chunks = .waiting s' →
      enough s'.remaining.toList = false → s'.closed = false → ends = false →
      p.Shows ends G s chunks (view s'.remaining.toList)) : Views ends G p view := by
  intro s chunks hs
  cases hfill : s.fill enough ends chunks with
  | done s' left =>
    have hfilled := filled_of_fill hfill
    rw [← hfilled.ahead_eq]
    exact hdone s chunks s' left hfill (hfilled.enough_or hs)
  | waiting s' =>
    obtain ⟨hready, hends, hahead⟩ := of_fill_waiting hfill
    obtain ⟨hshort, hopen⟩ := Bool.or_eq_false_iff.mp hready
    rw [← hahead]
    exact hwaiting s chunks s' hfill hshort hopen hends

theorem views_of_conclude {p : Parser Γ τ α} {enough : List τ → Bool}
    {o : Input τ → Outcome τ α} {onWait : Input τ → Input τ} {view : List τ → Showing τ α}
    (hp : ∀ s chunks, p.Halts ends G s chunks ((s.fill enough ends chunks).conclude o onWait))
    (hdone : ∀ s left, enough s.remaining.toList = true ∨ ends = true ∧ left = [] →
      (Halt.done (o s) left).showing = view (s.ahead left))
    (hwaiting : ∀ s, enough s.remaining.toList = false → ends = false →
      (onWait s).closed = s.closed ∧
        view s.remaining.toList = .waiting (onWait s).remaining.toList false) :
    Views ends G p view := by
  refine views_of_fill enough (fun s chunks s' left hfill hstop => ?_)
    (fun s chunks s' hfill hshort hopen hends => ?_)
  · have hhalts := hp s chunks
    rw [hfill] at hhalts
    exact ⟨_, hhalts, hdone s' left hstop⟩
  · have hhalts := hp s chunks
    obtain ⟨hsame, hview⟩ := hwaiting s' hshort hends
    rw [hfill] at hhalts
    refine ⟨_, hhalts, ?_⟩
    rw [hview, ← hopen, ← hsame]
    rfl

theorem views_of_map {p : Parser Γ τ α} {enough : List τ → Bool} {o : Input τ → Outcome τ α}
    {view : List τ → Showing τ α}
    (hp : ∀ s chunks, p.Halts ends G s chunks ((s.fill enough ends chunks).map o))
    (hdone : ∀ s left, enough s.remaining.toList = true ∨ ends = true ∧ left = [] →
      (Halt.done (o s) left).showing = view (s.ahead left))
    (hwaiting : ∀ s : Input τ, enough s.remaining.toList = false → ends = false →
      view s.remaining.toList = .waiting s.remaining.toList false) : Views ends G p view := by
  have hconclude : ∀ s chunks, p.Halts ends G s chunks
      ((s.fill enough ends chunks).conclude o id) := by
    intro s chunks
    have hhalts := hp s chunks
    rwa [Halt.map_eq_conclude] at hhalts
  exact views_of_conclude hconclude hdone fun s hshort hends => ⟨rfl, hwaiting s hshort hends⟩

/-! ## Single tokens and blocks of known length -/

/-- What a parser that decides on one token shows. -/
def tokenView (ends : Bool) (p : τ → Bool) (message : String) (value : τ → α) :
    List τ → Showing τ α
  | t :: rest => if p t then .accepted (value t) rest else .rejected ⟨[], message⟩ (t :: rest)
  | [] => dry ends [] (.rejected .notEnoughInput [])

theorem views_next {q : Parser Γ τ α} {p : τ → Bool} {message : String} {value : τ → α}
    (hq : ∀ s chunks, q.Halts ends G s chunks
      ((s.fill (atLeast 1) ends chunks).map (next p message value))) :
    Views ends G q (tokenView ends p message value) := by
  refine views_of_map hq (fun s left hstop => ?_) (fun s hshort hends => ?_)
  · cases htokens : s.remaining.toList with
    | nil =>
      rw [htokens] at hstop
      obtain ⟨hends, hleft⟩ := hstop.resolve_left Bool.false_ne_true
      simp [next_of_nil p message value htokens, Halt.showing, ahead, htokens, hleft, tokenView,
        dry, hends]
    | cons t rest =>
      rw [next_of_cons p message value htokens, ahead, htokens, List.cons_append, tokenView]
      split
      · simp [Halt.showing, ahead]
      · simp [Halt.showing, ahead, htokens]
  · rw [(atLeast_one_eq_false_iff _).mp hshort, hends]
    rfl

theorem views_satisfy (p : τ → Bool) :
    Views ends G (satisfy p) (tokenView ends p "satisfy?" fun t => t) :=
  views_next fun s chunks => halts_satisfy ends G s chunks p

theorem views_skip (p : τ → Bool) :
    Views ends G (skip p) (tokenView ends p "skip" fun _ => ()) :=
  views_next fun s chunks => halts_skip ends G s chunks p

theorem views_takeWith (n : Int) (p : List τ → Bool) :
    Views ends G (takeWith n p) fun tokens =>
      if n ≤ tokens.length then
        if p (tokens.take n.toNat) then .accepted (tokens.take n.toNat) (tokens.drop n.toNat)
        else .rejected ⟨[], "take-with"⟩ tokens
      else dry ends tokens (.rejected .notEnoughInput tokens) := by
  refine views_of_map (fun s chunks => halts_takeWith ends G s chunks n p)
    (fun s left hstop => ?_) (fun s hshort hends => ?_)
  · have hiff : n ≤ s.remaining.toList.length ↔ n ≤ (s.ahead left).length := by
      refine le_length_iff_of_atLeast (hstop.imp_right fun h => ?_)
      rw [h.2, List.flatten_nil]
    by_cases hn : n ≤ (s.ahead left).length
    · have hle : n.toNat ≤ s.remaining.toList.length := by
        have := hiff.mpr hn
        omega
      have htake : (s.ahead left).take n.toNat = s.remaining.toList.take n.toNat :=
        List.take_append_of_le_length hle
      have hdrop : (s.ahead left).drop n.toNat =
          s.remaining.toList.drop n.toNat ++ left.flatten := List.drop_append_of_le_length hle
      rw [block, Buffer.size_eq, if_pos (hiff.mpr hn), if_pos hn, htake, hdrop]
      split
      · simp [Halt.showing, ahead]
      · rfl
    · have hnot : ¬ n ≤ s.remaining.toList.length := fun h => hn (hiff.mp h)
      have hends : ends = true := by
        rw [atLeast, decide_eq_true_eq] at hstop
        exact (hstop.resolve_left hnot).1
      rw [block, Buffer.size_eq, if_neg hnot, if_neg hn, hends]
      rfl
  · rw [atLeast, decide_eq_false_iff_not] at hshort
    rw [if_neg hshort, hends]
    rfl

/-! ## Scans -/

/-- What a scan shows, in terms of the run it has found. -/
def scanView (ends : Bool) (p : τ → Bool) (value : List τ → α) (tokens : List τ) : Showing τ α :=
  if (tokens.dropWhile p).isEmpty then dry ends [] (.accepted (value (tokens.takeWhile p)) [])
  else .accepted (value (tokens.takeWhile p)) (tokens.dropWhile p)

section Scan

variable {p : τ → Bool} (value : List τ → α)

theorem scanView_of_ends (tokens : List τ) :
    scanView true p value tokens =
      .accepted (value (tokens.takeWhile p)) (tokens.dropWhile p) := by
  unfold scanView
  split
  · next h =>
    rw [List.isEmpty_iff.mp h]
    rfl
  · rfl

/-- The run has been found once there is a token outside it, or all there is. -/
theorem scanView_ahead {s : Input τ} {left : List (List τ)}
    (h : escapes p s.remaining.toList = true ∨ ends = true ∧ left = []) :
    scanView ends p value (s.ahead left) =
      .accepted (value (s.remaining.toList.takeWhile p)) ((s.behindRun p).ahead left) := by
  rw [ahead, ahead, behindRun, Buffer.toList_ofList]
  rcases h with h | ⟨rfl, rfl⟩
  · have hrest := (escapes_iff p _).mp h
    rw [scanView, takeWhile_append_left p _ hrest, dropWhile_append_left p _ hrest, if_neg]
    simp [hrest]
  · rw [List.flatten_nil, List.append_nil, List.append_nil, scanView_of_ends]

theorem scanView_of_not_escapes {tokens : List τ} (h : escapes p tokens = false) :
    scanView false p value tokens = .waiting [] false := by
  rw [scanView, (escapes_eq_false_iff p tokens).mp h, List.isEmpty_nil, if_pos rfl]
  rfl

end Scan

theorem views_scan {q : Parser Γ τ α} {p : τ → Bool} {value : List τ → α}
    (hq : ∀ s chunks, q.Halts ends G s chunks ((s.fill (escapes p) ends chunks).conclude
      (fun s' => .success (s'.behindRun p) (value (s'.remaining.toList.takeWhile p))) clear)) :
    Views ends G q (scanView ends p value) := by
  refine views_of_conclude hq (fun s left hstop => ?_) (fun s hshort hends => ⟨rfl, ?_⟩)
  · exact (scanView_ahead value hstop).symm
  · rw [hends]
    exact scanView_of_not_escapes value hshort

theorem views_skipWhile (p : τ → Bool) :
    Views ends G (skipWhile p) (scanView ends p fun _ => ()) :=
  views_scan fun s chunks => halts_skipWhile ends G s chunks p

theorem views_takeWhile (p : τ → Bool) : Views ends G (takeWhile p) (scanView ends p id) :=
  views_scan fun s chunks => halts_takeWhile ends G s chunks p

/-- What `takeWhile1` shows. -/
def scanView1 (ends : Bool) (p : τ → Bool) : List τ → Showing τ (List τ)
  | t :: rest =>
    if p t then scanView ends p id (t :: rest) else .rejected ⟨[], "take-while1"⟩ (t :: rest)
  | [] => dry ends [] (.rejected .notEnoughInput [])

theorem views_takeWhile1 (p : τ → Bool) : Views ends G (takeWhile1 p) (scanView1 ends p) := by
  refine views_of_conclude (fun s chunks => halts_takeWhile1 ends G s chunks p)
    (fun s left hstop => ?_) (fun s hshort hends => ⟨rfl, ?_⟩)
  · cases htokens : s.remaining.toList with
    | nil =>
      rw [htokens] at hstop
      obtain ⟨hends, hleft⟩ := hstop.resolve_left Bool.false_ne_true
      have hempty := s.remaining.isEmpty_iff.mpr htokens
      rw [startedRun, if_pos hempty, Halt.showing, ahead, htokens, hends, hleft]
      rfl
    | cons t rest =>
      have hsome : ¬ s.remaining.isEmpty = true := by
        rw [Buffer.isEmpty_eq, htokens]
        exact Bool.false_ne_true
      have hview : scanView1 ends p (s.ahead left) = if p t then scanView ends p id (s.ahead left)
          else .rejected ⟨[], "take-while1"⟩ (s.ahead left) := by
        rw [ahead, htokens]
        rfl
      rw [startedRun, if_neg hsome, hview]
      by_cases ht : p t = true
      · rw [if_pos ht, scanView_ahead id hstop, htokens, List.takeWhile_cons_of_pos ht]
        rfl
      · rw [if_neg ht, htokens, List.takeWhile_cons_of_neg ht]
        rfl
  · rw [hends]
    cases htokens : s.remaining.toList with
    | nil => rfl
    | cons t rest =>
      rw [htokens] at hshort
      have ht : p t = true := by
        rw [escapes, List.any_cons, Bool.or_eq_false_iff, Bool.not_eq_false'] at hshort
        exact hshort.1
      rw [scanView1, if_pos ht]
      exact scanView_of_not_escapes id hshort

/-! ## Tests for the presence of input -/

/-- What the answer to a test shows. -/
def answerView : Except Failure α → List τ → Showing τ α
  | .ok a, rest => .accepted a rest
  | .error e, rest => .rejected e rest

theorem views_of_glances {p : Parser Γ τ α} (answer : Bool → Except Failure α)
    (hp : ∀ s chunks, p.Glances ends G s chunks fun rest => answer rest.isEmpty) :
    Views ends G p fun tokens =>
      if tokens.isEmpty then dry ends [] (answerView (answer true) [])
      else answerView (answer false) tokens := by
  refine views_of_fill (atLeast 1) (fun s chunks s' left hfill hstop => ?_)
    (fun s chunks s' hfill hshort hopen hends => ?_)
  · refine ⟨_, (hp s chunks).done hfill, ?_⟩
    have hshown : (Halt.done (s'.look fun rest => answer rest.isEmpty) left).showing =
        answerView (answer s'.remaining.isEmpty) (s'.ahead left) := by
      rw [look]
      cases answer s'.remaining.isEmpty <;> rfl
    rw [hshown, Buffer.isEmpty_eq]
    cases htokens : s'.remaining.toList with
    | nil =>
      rw [htokens] at hstop
      obtain ⟨hends, hleft⟩ := hstop.resolve_left Bool.false_ne_true
      rw [ahead, htokens, hends, hleft]
      rfl
    | cons t rest =>
      rw [ahead, htokens]
      rfl
  · obtain ⟨record, hwait⟩ := (hp s chunks).waiting hfill
    have hnil := (atLeast_one_eq_false_iff _).mp hshort
    refine ⟨_, hwait, ?_⟩
    rw [Halt.showing, hnil, hopen, hends]
    rfl

theorem views_wantInput : Views ends G wantInput fun tokens =>
    if tokens.isEmpty then dry ends [] (.accepted false []) else .accepted true tokens :=
  views_of_glances (fun none => .ok !none) fun s chunks => glances_wantInput ends G s chunks

theorem views_endOfInput : Views ends G endOfInput fun tokens =>
    if tokens.isEmpty then dry ends [] (.accepted () [])
    else .rejected ⟨[], "end-of-input"⟩ tokens :=
  views_of_glances (fun none => if none then .ok () else .error ⟨[], "end-of-input"⟩)
    fun s chunks => glances_endOfInput ends G s chunks

end Rules

/-- Every seamless leaf views the stream. -/
theorem exists_views (ends : Bool) (G : Rules Γ τ) {p : Parser Γ τ α} (hp : SeamlessLeaf α p) :
    ∃ view, Views ends G p view := by
  cases hp with
  | wantInput => exact ⟨_, views_wantInput⟩
  | satisfy p => exact ⟨_, views_satisfy p⟩
  | skip p => exact ⟨_, views_skip p⟩
  | takeWith n p => exact ⟨_, views_takeWith n p⟩
  | skipWhile p => exact ⟨_, views_skipWhile p⟩
  | takeWhile p => exact ⟨_, views_takeWhile p⟩
  | takeWhile1 p => exact ⟨_, views_takeWhile1 p⟩
  | endOfInput => exact ⟨_, views_endOfInput⟩

end Piecemeal.Parser
