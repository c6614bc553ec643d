import Mathlib.Data.List.Forall2
import Piecemeal.Arena.Lists

/-!
# Windows do not change

Windows share arenas, and an arena grows while other windows look at it. Still a window is as good
as the list of tokens it shows: `Store.Shows s w tokens` says that the arena of `w` consists of some
tokens, then `tokens` at the place of the window, and then others. A store only ever `Extends`, by
more tokens behind those of an arena or by new arenas, and that leaves what a window shows as it is
(`Shows.extends`). Each operation on windows has a lemma that gives the list its result shows.

Appending a window reads tokens from an arena while it pushes onto one, perhaps the same. What it
reads is what was there before (`appendWindow_eq`).

So a machine on windows and a machine on lists take every instruction alike (`Refines.step`), and a
program has the same answers on both and ends with the same in its registers (`windows_persist`).
-/

namespace Piecemeal.Arena

variable {τ : Type}

/-! ## Parts of lists -/

theorem clamp_le (n : Int) (lo hi : Nat) : clamp n lo hi ≤ hi := by
  unfold clamp
  omega

theorem le_clamp (n : Int) {lo hi : Nat} (h : lo ≤ hi) : lo ≤ clamp n lo hi := by
  unfold clamp
  omega

/-- Moving the bounds to the ends of the list first makes no difference. -/
theorem listSlice_eq (tokens : List τ) (lo hi : Int) :
    listSlice tokens lo hi = (tokens.take hi.toNat).drop lo.toNat := by
  unfold listSlice clamp
  apply List.ext_getElem?
  intro i
  simp only [List.getElem?_drop, List.getElem?_take]
  have hlen : ∀ j, tokens.length ≤ j → tokens[j]? = none := fun j => List.getElem?_eq_none
  split
  · split
    · by_cases hlo : lo.toNat ≤ tokens.length
      · congr 1
        omega
      · rw [hlen _ (by omega), hlen _ (by omega)]
    · rw [hlen _ (by omega)]
  · split
    · rw [hlen _ (by omega)]
    · rfl

theorem listSlice_zero (tokens : List τ) (n : Int) :
    listSlice tokens 0 n = tokens.take n.toNat := by
  rw [listSlice_eq, Int.toNat_zero, List.drop_zero]

theorem listSlice_length (tokens : List τ) (n : Int) :
    listSlice tokens n tokens.length = tokens.drop n.toNat := by
  rw [listSlice_eq, Int.toNat_natCast, List.take_length]

theorem take_length_takeWhile (p : τ → Bool) (tokens : List τ) :
    tokens.take (tokens.takeWhile p).length = tokens.takeWhile p := by
  exact List.prefix_iff_eq_take.mp (List.takeWhile_prefix p) |>.symm

theorem drop_length_takeWhile (p : τ → Bool) (tokens : List τ) :
    tokens.drop (tokens.takeWhile p).length = tokens.dropWhile p := by
  have h : (tokens.takeWhile p ++ tokens.dropWhile p).drop (tokens.takeWhile p).length =
      tokens.dropWhile p := List.drop_left
  rwa [List.takeWhile_append_dropWhile] at h

namespace Store

variable {s s' : Store τ} {w v : Window} {tokens more : List τ}

/-! ## What a window shows -/

/-- The window lies within an arena of the store. -/
structure Valid (s : Store τ) (w : Window) : Prop where
  arena_lt : w.arena < s.arenas.size
  start_le : w.start ≤ w.stop
  stop_le : w.stop ≤ (s.arena w).size

/-- The tokens stand at the place of the window. -/
def Shows (s : Store τ) (w : Window) (tokens : List τ) : Prop :=
  ∃ before after, s.arenas[w.arena]? = some (before ++ (tokens ++ after)).toArray ∧
    w.start = before.length ∧ w.stop = before.length + tokens.length

/-- Every arena of `s` is there in `s'`, perhaps with more tokens behind the others. -/
def Extends (s s' : Store τ) : Prop :=
  ∀ (i : Nat) (arena : Array τ), s.arenas[i]? = some arena →
    ∃ more : List τ, s'.arenas[i]? = some (arena ++ more)

theorem arena_eq {arena : Array τ} (h : s.arenas[w.arena]? = some arena) : s.arena w = arena := by
  rw [Store.arena, Array.getD_eq_getD_getElem?, h, Option.getD_some]

theorem Shows.valid (h : s.Shows w tokens) : s.Valid w := by
  obtain ⟨before, after, harena, hstart, hstop⟩ := h
  refine ⟨(Array.getElem?_eq_some_iff.mp harena).1, by omega, ?_⟩
  rw [arena_eq harena, List.size_toArray, List.length_append, List.length_append]
  omega

theorem Shows.size_eq (h : s.Shows w tokens) : w.size = tokens.length := by
  obtain ⟨before, after, -, hstart, hstop⟩ := h
  unfold Window.size
  omega

theorem Shows.toList_eq (h : s.Shows w tokens) : s.toList w = tokens := by
  obtain ⟨before, after, harena, hstart, hstop⟩ := h
  have hsize : w.stop - w.start = tokens.length := by omega
  rw [toList, arena_eq harena, Array.toList_extract, List.extract_eq_take_drop, hsize, hstart,
    List.drop_left, List.take_left]

theorem Shows.isEmpty_eq (h : s.Shows w tokens) : w.isEmpty = tokens.isEmpty := by
  obtain ⟨before, after, -, hstart, hstop⟩ := h
  rw [Window.isEmpty, hstart, hstop]
  cases tokens with
  | nil => simp
  | cons t rest => simp

theorem Shows.extends (h : s.Shows w tokens) (hs : s.Extends s') : s'.Shows w tokens := by
  obtain ⟨before, after, harena, hstart, hstop⟩ := h
  obtain ⟨more, hmore⟩ := hs _ _ harena
  refine ⟨before, after ++ more, ?_, hstart, hstop⟩
  rw [hmore]
  simp

theorem extends_refl (s : Store τ) : s.Extends s := by
  intro i arena h
  exact ⟨[], by rw [h, Array.appendList_nil]⟩

/-! ## Parts of a window -/

theorem Shows.slice (h : s.Shows w tokens) (lo hi : Int) :
    s.Shows (w.slice lo hi) (listSlice tokens lo hi) := by
  have hsize := h.size_eq
  obtain ⟨before, after, harena, hstart, hstop⟩ := h
  unfold Window.slice listSlice
  rw [hsize]
  have hlo := clamp_le lo 0 tokens.length
  have hle := le_clamp hi hlo
  have hhi := clamp_le hi (clamp lo 0 tokens.length) tokens.length
  generalize clamp lo 0 tokens.length = first at hlo hle hhi ⊢
  generalize hlast : clamp hi first tokens.length = last at hle hhi
  simp only [hlast]
  refine ⟨before ++ tokens.take first, tokens.drop last ++ after, ?_, ?_, ?_⟩
  · -- the tokens fall into three parts, the middle one of which is shown
    have hparts : tokens.take first ++ ((tokens.take last).drop first ++ tokens.drop last) =
        tokens := by
      have hfirst : tokens.take first = (tokens.take last).take first := by
        rw [List.take_take, Nat.min_eq_left hle]
      rw [← List.append_assoc, hfirst, List.take_append_drop, List.take_append_drop]
    rw [harena]
    nth_rewrite 1 [← hparts]
    simp only [List.append_assoc]
  · simp only [List.length_append, List.length_take]
    omega
  · simp only [List.length_append, List.length_take, List.length_drop]
    omega

theorem Shows.take (h : s.Shows w tokens) (n : Int) : s.Shows (w.take n) (tokens.take n.toNat) := by
  have hslice := h.slice 0 n
  rwa [listSlice_zero] at hslice

theorem Shows.drop (h : s.Shows w tokens) (n : Int) : s.Shows (w.drop n) (tokens.drop n.toNat) := by
  have hslice := h.slice n tokens.length
  rw [listSlice_length, ← h.size_eq] at hslice
  exact hslice

theorem Shows.get?_eq (h : s.Shows w tokens) (i : Int) :
    s.get? w i = if 0 ≤ i then tokens[i.toNat]? else none := by
  have hsize := h.size_eq
  obtain ⟨before, after, harena, hstart, hstop⟩ := h
  rw [get?, arena_eq harena, hsize, hstart]
  by_cases hi : 0 ≤ i
  · rw [if_pos hi]
    by_cases hlt : i < tokens.length
    · rw [if_pos ⟨hi, hlt⟩, List.getElem?_toArray, List.getElem?_append_right (by omega),
        Nat.add_sub_cancel_left, List.getElem?_append_left (by omega)]
    · rw [if_neg (by omega), List.getElem?_eq_none (by omega)]
  · rw [if_neg (by omega), if_neg hi]

theorem Shows.countWhile_eq (h : s.Shows w tokens) (p : τ → Bool) :
    s.countWhile w p = (tokens.takeWhile p).length := by
  rw [countWhile, h.toList_eq]

theorem Shows.dropWhile (h : s.Shows w tokens) (p : τ → Bool) :
    s.Shows (s.dropWhile w p) (tokens.dropWhile p) := by
  have hdrop := h.drop (s.countWhile w p)
  rwa [Int.toNat_natCast, h.countWhile_eq, drop_length_takeWhile, ← h.countWhile_eq] at hdrop

theorem Shows.takeWhile (h : s.Shows w tokens) (p : τ → Bool) :
    s.Shows (w.take (s.countWhile w p)) (tokens.takeWhile p) := by
  have htake := h.take (s.countWhile w p)
  rwa [Int.toNat_natCast, h.countWhile_eq, take_length_takeWhile, ← h.countWhile_eq] at htake

/-! ## New windows -/

theorem shows_allocate (s : Store τ) (tokens : List τ) :
    (s.allocate tokens).2.Shows (s.allocate tokens).1 tokens := by
  refine ⟨[], [], ?_, rfl, (Nat.zero_add _).symm⟩
  simp [allocate]

theorem extends_allocate (s : Store τ) (tokens : List τ) : s.Extends (s.allocate tokens).2 := by
  intro i arena h
  have hlt : i < s.arenas.size := (Array.getElem?_eq_some_iff.mp h).1
  refine ⟨[], ?_⟩
  rw [allocate, Array.getElem?_push, if_neg (by omega), h, Array.appendList_nil]

theorem append_append (arena : Array τ) (first second : List τ) :
    arena ++ first ++ second = arena ++ (first ++ second) := by
  apply Array.toList_inj.mp
  simp only [Array.toList_appendList, List.append_assoc]

theorem extends_trans {s'' : Store τ} (h : s.Extends s') (h' : s'.Extends s'') :
    s.Extends s'' := by
  intro i arena harena
  obtain ⟨first, hfirst⟩ := h i arena harena
  obtain ⟨second, hsecond⟩ := h' i _ hfirst
  exact ⟨first ++ second, by rw [hsecond, append_append]⟩

theorem atTip_spec (h : s.Shows w tokens) :
    s.Extends (s.atTip w).2 ∧ (s.atTip w).2.Shows (s.atTip w).1 tokens ∧
      (s.atTip w).1.stop = ((s.atTip w).2.arena (s.atTip w).1).size := by
  rw [atTip, h.toList_eq]
  split
  · next htip => exact ⟨extends_refl s, h, htip⟩
  · refine ⟨extends_allocate s tokens, shows_allocate s tokens, ?_⟩
    have harena : (s.allocate tokens).2.arenas[(s.allocate tokens).1.arena]? =
        some tokens.toArray := by simp [allocate]
    rw [arena_eq harena, List.size_toArray]
    rfl

theorem extends_grow (s : Store τ) (i : Nat) (tokens : List τ) : s.Extends (s.grow i tokens) := by
  intro j arena h
  rw [grow, Array.getElem?_modify, h]
  split
  · exact ⟨tokens, rfl⟩
  · exact ⟨[], by rw [Array.appendList_nil]⟩

theorem getElem?_grow (h : s.arenas[w.arena]? = some tokens.toArray) (more : List τ) :
    (s.grow w.arena more).arenas[w.arena]? = some (tokens ++ more).toArray := by
  rw [grow, Array.getElem?_modify, if_pos rfl, h]
  simp

theorem Shows.grow (h : s.Shows w tokens) (htip : w.stop = (s.arena w).size) (more : List τ) :
    (s.grow w.arena more).Shows { w with stop := w.stop + more.length } (tokens ++ more) := by
  obtain ⟨before, after, harena, hstart, hstop⟩ := h
  have hafter : after = [] := by
    rw [arena_eq harena, List.size_toArray, List.length_append, List.length_append] at htip
    exact List.length_eq_zero_iff.mp (by omega)
  subst hafter
  refine ⟨before, [], ?_, hstart, ?_⟩
  · have hgrown := getElem?_grow harena more
    simpa only [List.append_nil, List.append_assoc] using hgrown
  · rw [List.length_append, ← Nat.add_assoc, ← hstop]

theorem Shows.append (h : s.Shows w tokens) (more : List τ) :
    (s.append w more).2.Shows (s.append w more).1 (tokens ++ more) := by
  obtain ⟨-, hshows, htip⟩ := atTip_spec h
  exact hshows.grow htip more

theorem Shows.extends_append (h : s.Shows w tokens) (more : List τ) :
    s.Extends (s.append w more).2 := by
  obtain ⟨hextends, -, -⟩ := atTip_spec h
  exact extends_trans hextends (extends_grow _ _ more)

/-! ## Reading while pushing -/

theorem grow_nil (s : Store τ) (i : Nat) : s.grow i [] = s := by
  refine congrArg Store.mk (Array.ext_getElem? fun j => ?_)
  rw [Array.getElem?_modify]
  split
  · cases s.arenas[j]? <;> simp
  · rfl

theorem grow_grow (s : Store τ) (i : Nat) (first second : List τ) :
    (s.grow i first).grow i second = s.grow i (first ++ second) := by
  refine congrArg Store.mk (Array.ext_getElem? fun j => ?_)
  simp only [grow, Array.getElem?_modify]
  split
  · cases s.arenas[j]? with
    | none => rfl
    | some arena => exact congrArg some (append_append arena first second)
  · rfl

/-- What is pushed in the meantime goes behind the tokens that are still to be read. -/
theorem pushFrom_eq {source : Nat} (target : Nat) {before after : List τ}
    (h : s.arenas[source]? = some (before ++ (tokens ++ after)).toArray) :
    pushFrom source target before.length tokens.length s = s.grow target tokens := by
  induction tokens generalizing s before after with
  | nil => exact (grow_nil s target).symm
  | cons t rest ih =>
    have hread : (s.arenas.getD source #[])[before.length]? = some t := by
      rw [Array.getD_eq_getD_getElem?, h]
      simp
    obtain ⟨pushed, hpushed⟩ := extends_grow s target [t] source _ h
    have hnext : (s.grow target [t]).arenas[source]? =
        some ((before ++ [t]) ++ (rest ++ (after ++ pushed))).toArray := by
      rw [hpushed]
      simp
    have hrest := ih hnext
    rw [List.length_append, List.length_singleton] at hrest
    rw [List.length_cons, pushFrom, hread]
    dsimp only
    rw [hrest, grow_grow, List.singleton_append]

/-- Appending a window is appending the tokens that it shows. -/
theorem appendWindow_eq (h : s.Shows w tokens) (hv : s.Shows v more) :
    s.appendWindow w v = s.append w more := by
  obtain ⟨hextends, hshows, htip⟩ := atTip_spec h
  have hread := hv.extends hextends
  have hgrown := (hshows.grow htip more).valid
  unfold appendWindow append
  dsimp only
  generalize (s.atTip w).2 = s' at hshows htip hread hgrown ⊢
  generalize (s.atTip w).1 = tip at hshows htip hgrown ⊢
  have hpushed : pushFrom v.arena tip.arena v.start v.size s' = s'.grow tip.arena more := by
    rw [hread.size_eq]
    obtain ⟨before, after, harena, hstart, -⟩ := hread
    rw [hstart]
    exact pushFrom_eq tip.arena harena
  have hsize : ((s'.grow tip.arena more).arena tip).size = tip.stop + more.length := by
    obtain ⟨before, after, harena, -, -⟩ := hshows
    rw [arena_eq (getElem?_grow harena more), htip, arena_eq harena, List.size_toArray,
      List.size_toArray, List.length_append]
  rw [hpushed, hsize]

theorem concat_spec (h : s.Shows w tokens) (hv : s.Shows v more) :
    (s.concat w v).2.Shows (s.concat w v).1 (tokens ++ more) ∧ s.Extends (s.concat w v).2 := by
  unfold concat
  rw [hv.isEmpty_eq, h.isEmpty_eq]
  split
  · next hempty =>
    rw [List.isEmpty_iff.mp hempty, List.append_nil]
    exact ⟨h, extends_refl s⟩
  · split
    · next hempty =>
      rw [List.isEmpty_iff.mp hempty, List.nil_append]
      exact ⟨hv, extends_refl s⟩
    · rw [appendWindow_eq h hv]
      exact ⟨h.append more, h.extends_append more⟩

end Store

/-! ## Machines -/

section Run

variable {μ : Type} (step : μ → Instruction τ → Option (Answer τ × μ)) (m : μ)

theorem run_cons (i : Instruction τ) (rest : List (Instruction τ)) :
    run step m (i :: rest) = (step m i).bind fun x =>
      (run step x.2 rest).map fun y => (x.1 :: y.1, y.2) := by
  rw [run]
  cases step m i with
  | none => rfl
  | some x =>
    change (run step x.2 rest).bind _ = (run step x.2 rest).map _
    cases run step x.2 rest <;> rfl

theorem run_append (first second : List (Instruction τ)) :
    run step m (first ++ second) = (run step m first).bind fun x =>
      (run step x.2 second).map fun y => (x.1 ++ y.1, y.2) := by
  induction first generalizing m with
  | nil =>
    change run step m second = (run step m second).map _
    cases run step m second <;> rfl
  | cons i rest ih =>
    rw [List.cons_append, run_cons, run_cons]
    cases step m i with
    | none => rfl
    | some x =>
      dsimp only [Option.bind_some]
      rw [ih]
      cases run step x.2 rest with
      | none => rfl
      | some y =>
        dsimp only [Option.bind_some, Option.map_some]
        cases run step y.2 second <;> rfl

end Run

/-- The windows in the registers of `m` show the lists in those of `l`. -/
def Machine.Refines (m : Machine τ) (l : ListMachine τ) : Prop :=
  List.Forall₂ m.store.Shows m.registers.toList l.registers

/-- From `m` and `l` both machines have come to the same answers and are alike again, and both have
kept what was in their registers. -/
structure Agree {β : Type} (m : Machine τ) (l : ListMachine τ) (x : β × Machine τ)
    (y : β × ListMachine τ) : Prop where
  answer : x.1 = y.1
  refines : x.2.Refines y.2
  windows : m.registers.toList <+: x.2.registers.toList
  lists : l.registers <+: y.2.registers

namespace Machine

open Store

variable {m : Machine τ} {l : ListMachine τ}

theorem Refines.contents_eq (h : m.Refines l) : m.contents = l.registers := by
  rw [contents, ← List.forall₂_eq_eq_eq, List.forall₂_map_left_iff]
  exact h.imp fun w tokens hw => hw.toList_eq

theorem Refines.register (h : m.Refines l) (r : Nat) :
    Option.Rel m.store.Shows m.registers[r]? l.registers[r]? := by
  rw [← Array.getElem?_toList]
  unfold Refines at h
  generalize m.registers.toList = windows at h ⊢
  generalize l.registers = lists at h ⊢
  induction h generalizing r with
  | nil => exact .none
  | cons hw _ ih =>
    cases r with
    | zero => exact .some hw
    | succ r => exact ih r

theorem Refines.push (h : m.Refines l) {s : Store τ} {w : Window} {tokens : List τ}
    (hs : m.store.Extends s) (hw : s.Shows w tokens) :
    Refines ⟨s, m.registers.push w⟩ ⟨l.registers ++ [tokens]⟩ := by
  unfold Refines
  rw [Array.toList_push]
  have hold : List.Forall₂ s.Shows m.registers.toList l.registers :=
    h.imp fun w tokens hw => hw.extends hs
  exact List.rel_append hold (.cons hw .nil)

/-- Looking at a register changes nothing. -/
theorem Refines.look (h : m.Refines l) {a b : Answer τ} (hab : a = b) : Agree m l (a, m) (b, l) :=
  ⟨hab, h, List.prefix_refl _, List.prefix_refl _⟩

theorem Refines.pushed (h : m.Refines l) {s : Store τ} {w : Window} {tokens : List τ}
    (hs : m.store.Extends s) (hw : s.Shows w tokens) {a b : Answer τ} (hab : a = b) :
    Agree m l (a, ⟨s, m.registers.push w⟩) (b, ⟨l.registers ++ [tokens]⟩) where
  answer := hab
  refines := h.push hs hw
  windows := by
    rw [Array.toList_push]
    exact List.prefix_append _ _
  lists := List.prefix_append _ _

theorem Refines.keep (h : m.Refines l) {made : Window × Store τ} {tokens : List τ}
    (hs : m.store.Extends made.2) (hw : made.2.Shows made.1 tokens) :
    Agree m l (m.keep made) (l.keep tokens) :=
  h.pushed hs hw (congrArg Answer.tokens hw.toList_eq)

theorem Refines.keepTwo (h : m.Refines l) {made : Window × Window} {first second : List τ}
    (hw : m.store.Shows made.1 first) (hv : m.store.Shows made.2 second) :
    Agree m l (m.keepTwo made) (l.keepTwo first second) where
  answer := congrArg₂ Answer.pair hw.toList_eq hv.toList_eq
  refines := by
    have htwo := (h.push (extends_refl _) hw).push (extends_refl _) hv
    rwa [List.append_assoc, List.singleton_append] at htwo
  windows := by
    rw [Machine.keepTwo, Array.toList_push, Array.toList_push, List.append_assoc]
    exact List.prefix_append _ _
  lists := List.prefix_append _ _

/-- An instruction on one register. -/
theorem Refines.on (h : m.Refines l) (r : Nat) {f : Window → Answer τ × Machine τ}
    {g : List τ → Answer τ × ListMachine τ}
    (hfg : ∀ w tokens, m.store.Shows w tokens → Agree m l (f w) (g tokens)) :
    Option.Rel (Agree m l) (m.registers[r]?.map f) (l.registers[r]?.map g) := by
  have hr := h.register r
  generalize m.registers[r]? = found at hr ⊢
  generalize l.registers[r]? = found' at hr ⊢
  cases hr with
  | none => exact .none
  | some hw => exact .some (hfg _ _ hw)

/-- An instruction on two registers. -/
theorem Refines.onTwo (h : m.Refines l) (r r' : Nat) {f : Window → Window → Answer τ × Machine τ}
    {g : List τ → List τ → Answer τ × ListMachine τ}
    (hfg : ∀ w v tokens more, m.store.Shows w tokens → m.store.Shows v more →
      Agree m l (f w v) (g tokens more)) :
    Option.Rel (Agree m l) (m.registers[r]?.bind fun w => m.registers[r']?.map (f w))
      (l.registers[r]?.bind fun tokens => l.registers[r']?.map (g tokens)) := by
  have hr := h.register r
  generalize m.registers[r]? = found at hr ⊢
  generalize l.registers[r]? = found' at hr ⊢
  cases hr with
  | none => exact .none
  | some hw => exact h.on r' fun v more hv => hfg _ _ _ _ hw hv

theorem Refines.step (h : m.Refines l) (i : Instruction τ) :
    Option.Rel (Agree m l) (m.step i) (l.step i) := by
  have here : m.store.Extends m.store := extends_refl m.store
  cases i with
  | empty => exact .some (h.keep (extends_allocate _ _) (shows_allocate _ _))
  | load items =>
    cases items with
    | tokens ts => exact .some (h.keep (extends_allocate _ _) (shows_allocate _ _))
    | register r => exact h.on r fun w tokens hw => h.keep here hw
  | append r items =>
    cases items with
    | tokens ts => exact h.on r fun w tokens hw => h.keep (hw.extends_append ts) (hw.append ts)
    | register r' =>
      refine h.onTwo r r' fun w v tokens more hw hv => ?_
      rw [appendWindow_eq hw hv]
      exact h.keep (hw.extends_append more) (hw.append more)
  | concat r r' =>
    refine h.onTwo r r' fun w v tokens more hw hv => ?_
    obtain ⟨hshows, hextends⟩ := concat_spec hw hv
    exact h.keep hextends hshows
  | take r n => exact h.on r fun w tokens hw => h.keep here (hw.take n)
  | drop r n => exact h.on r fun w tokens hw => h.keep here (hw.drop n)
  | slice r lo hi =>
    refine h.on r fun w tokens hw => ?_
    rw [hw.size_eq]
    exact h.keep here (hw.slice lo _)
  | splitAt r n => exact h.on r fun w tokens hw => h.keepTwo (hw.take n) (hw.drop n)
  | span r p => exact h.on r fun w tokens hw => h.keepTwo (hw.takeWhile p) (hw.dropWhile p)
  | dropWhile r p => exact h.on r fun w tokens hw => h.keep here (hw.dropWhile p)
  | uncons r =>
    refine h.on r fun w tokens hw => ?_
    rw [uncons?, hw.get?_eq]
    cases tokens with
    | nil => exact h.look rfl
    | cons t rest =>
      have htail : m.store.Shows (w.drop 1) rest := hw.drop 1
      exact h.pushed here htail
        (congrArg (fun tail => Answer.headTail (some (t, tail))) htail.toList_eq)
  | size r => exact h.on r fun w tokens hw => h.look (congrArg Answer.number hw.size_eq)
  | isEmpty r => exact h.on r fun w tokens hw => h.look (congrArg Answer.truth hw.isEmpty_eq)
  | get r i => exact h.on r fun w tokens hw => h.look (congrArg Answer.token (hw.get?_eq i))
  | countWhile r p =>
    exact h.on r fun w tokens hw => h.look (congrArg Answer.number (hw.countWhile_eq p))
  | tokens r => exact h.on r fun w tokens hw => h.look (congrArg Answer.tokens hw.toList_eq)

/-! ## Programs -/

theorem Refines.run (h : m.Refines l) (program : List (Instruction τ)) :
    Option.Rel (Agree m l) (m.run program) (l.run program) := by
  unfold Machine.run ListMachine.run
  induction program generalizing m l with
  | nil => exact .some ⟨rfl, h, List.prefix_refl _, List.prefix_refl _⟩
  | cons i rest ih =>
    rw [run_cons, run_cons]
    have hstep := h.step i
    generalize m.step i = x? at hstep ⊢
    generalize l.step i = y? at hstep ⊢
    cases hstep with
    | none => exact .none
    | @some x y hxy =>
      have hrest := ih hxy.refines
      dsimp only [Option.bind_some]
      generalize Arena.run Machine.step x.2 rest = x'? at hrest ⊢
      generalize Arena.run ListMachine.step y.2 rest = y'? at hrest ⊢
      cases hrest with
      | none => exact .none
      | some h' =>
        refine .some ⟨?_, h'.refines, hxy.windows.trans h'.windows, hxy.lists.trans h'.lists⟩
        exact congrArg₂ List.cons hxy.answer h'.answer

theorem refines_initial : (initial : Machine τ).Refines .initial := .nil

theorem Refines.valid (h : m.Refines l) {w : Window} (hw : w ∈ m.registers) : m.store.Valid w := by
  obtain ⟨r, hlt, hr⟩ := Array.mem_iff_getElem.mp hw
  have hshows := h.register r
  rw [Array.getElem?_eq_getElem hlt, hr] at hshows
  generalize l.registers[r]? = found at hshows
  cases hshows with
  | some hshows => exact hshows.valid

end Machine

open Machine in
/-- **Windows are persistent lists.** A program on windows over shared arenas has the answers that
it has on lists, instruction by instruction, and ends with the same in its registers; it breaks off
where the one on lists does. Bounds outside a list are as good as its ends. At every place of the
program all windows lie within their arenas, and from there on each register keeps its window and
what it shows. -/
theorem windows_persist (program : List (Instruction τ)) :
    (initial.run program).map (fun x => (x.1, x.2.contents)) =
      (ListMachine.initial.run program).map (fun y => (y.1, y.2.registers)) ∧
    (∀ (tokens : List τ) (lo hi : Int),
      listSlice tokens lo hi = (tokens.take hi.toNat).drop lo.toNat) ∧
    ∀ first second answers m, program = first ++ second →
      initial.run program = some (answers, m) →
      (∀ w ∈ m.registers, m.store.Valid w) ∧
      ∃ answers' m', initial.run first = some (answers', m') ∧ answers' <+: answers ∧
        m'.registers.toList <+: m.registers.toList ∧ m'.contents <+: m.contents := by
  refine ⟨?_, listSlice_eq, ?_⟩
  · have hrun := refines_initial.run program
    generalize initial.run program = x? at hrun ⊢
    generalize ListMachine.initial.run program = y? at hrun ⊢
    cases hrun with
    | none => rfl
    | some h => exact congrArg some (Prod.ext h.answer h.refines.contents_eq)
  · intro first second answers m hprogram hrun
    rw [hprogram, Machine.run, run_append] at hrun
    obtain ⟨⟨answers', m'⟩, hfirst, hsecond⟩ := Option.bind_eq_some_iff.mp hrun
    obtain ⟨⟨answers'', m''⟩, hrest, heq⟩ := Option.map_eq_some_iff.mp hsecond
    cases heq
    have hstart := refines_initial.run first
    rw [Machine.run, hfirst] at hstart
    generalize ListMachine.initial.run first = y? at hstart
    cases hstart with
    | some h =>
      have hend := h.refines.run second
      rw [Machine.run, hrest] at hend
      generalize ListMachine.run _ second = z? at hend
      cases hend with
      | some h' =>
        refine ⟨fun w hw => h'.refines.valid hw, answers', m', hfirst, List.prefix_append _ _,
          h'.windows, ?_⟩
        rw [h.refines.contents_eq, h'.refines.contents_eq]
        exact h'.lists

/-- A window that is part of another, and a window appended to itself. -/
def overlap : List (Instruction Nat) :=
  [.load (.tokens [1, 2, 3]), .slice 0 1 none, .append 0 (.register 0)]

/-- Appends to windows of which one is at the tip of its arena and the others are not, and cuts with
bounds outside. -/
def branches : List (Instruction Nat) :=
  [.append 1 (.register 2), .append 1 (.tokens [9]), .append 2 (.tokens [7]), .concat 2 1,
    .slice 3 (-4) (some 2), .slice 3 2 (some (-1)), .get 2 (-1)]

theorem windows_persist_overlap : ∃ answers m answers' m',
    Machine.initial.run (overlap ++ branches) = some (answers, m) ∧
    m.contents = [[1, 2, 3], [2, 3], [1, 2, 3, 1, 2, 3], [2, 3, 1, 2, 3, 1, 2, 3], [2, 3, 9],
      [1, 2, 3, 1, 2, 3, 7], [1, 2, 3, 1, 2, 3, 2, 3], [2, 3], []] ∧
    (∀ w ∈ m.registers, m.store.Valid w) ∧
    Machine.initial.run overlap = some (answers', m') ∧ m'.contents <+: m.contents := by
  obtain ⟨hsame, -, hkept⟩ := windows_persist (overlap ++ branches)
  obtain ⟨answers, lists, hlists, hregisters⟩ : ∃ answers lists,
      ListMachine.initial.run (overlap ++ branches) = some (answers, lists) ∧
      lists.registers = [[1, 2, 3], [2, 3], [1, 2, 3, 1, 2, 3], [2, 3, 1, 2, 3, 1, 2, 3], [2, 3, 9],
        [1, 2, 3, 1, 2, 3, 7], [1, 2, 3, 1, 2, 3, 2, 3], [2, 3], []] := ⟨_, _, rfl, rfl⟩
  rw [hlists, Option.map_some, hregisters] at hsame
  obtain ⟨⟨answers, m⟩, hrun, heq⟩ := Option.map_eq_some_iff.mp hsame
  obtain ⟨hvalid, answers', m', hrun', -, -, hprefix⟩ := hkept overlap branches answers m rfl hrun
  exact ⟨answers, m, answers', m', hrun, congrArg Prod.snd heq, hvalid, hrun', hprefix⟩

end Piecemeal.Arena
