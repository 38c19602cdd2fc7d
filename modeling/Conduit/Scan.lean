import Mathlib.Data.List.Basic

/-!
# Scanners

A scanner goes through a text symbol by symbol: its next state depends on its state, on the
symbol it reads, and on the rest of the text, which it may look into. What it puts out at a
position depends on the state there and the text from there on. Nothing here refers to a
particular system.

## Main results

* `run_invariant`, `run_invariant_until`: what every step keeps, every position has.
* `snd_mem_run`, `run_pair_split`: the positions of two scanners that go through a text side by
  side.
* `reads_append_left`, `reads_append_right`: what a scanner finds in a text that stands between
  others.
-/

namespace Scan

variable {α σ τ β : Type*}

/-- The positions of a text, from the first to the end: the state of the scanner and the rest
of the text. -/
def run (next : σ → α → List α → σ) : σ → List α → List (σ × List α)
  | s, [] => [(s, [])]
  | s, a :: rest => (s, a :: rest) :: run next (next s a rest) rest

/-- What a scanner puts out. -/
def outputs (next : σ → α → List α → σ) (out : σ → List α → List β) (s : σ) (text : List α) :
    List β :=
  (run next s text).flatMap fun x => out x.1 x.2

theorem outputs_cons (next : σ → α → List α → σ) (out : σ → List α → List β) (s : σ) (a : α)
    (rest : List α) :
    outputs next out s (a :: rest) = out s (a :: rest) ++ outputs next out (next s a rest) rest :=
  rfl

/-- The output of a position is output of the scanner. -/
theorem mem_outputs {next : σ → α → List α → σ} {out : σ → List α → List β} {s : σ}
    {text : List α} {b : β} :
    b ∈ outputs next out s text ↔ ∃ x ∈ run next s text, b ∈ out x.1 x.2 :=
  List.mem_flatMap

/-- **Invariants.** What holds at the first position and is kept by every step holds at every
position. -/
theorem run_invariant {next : σ → α → List α → σ} {I : σ → List α → Prop}
    (hstep : ∀ s a rest, I s (a :: rest) → I (next s a rest) rest) {s : σ} {text : List α}
    (h : I s text) : ∀ x ∈ run next s text, I x.1 x.2 := by
  induction text generalizing s with
  | nil =>
      intro x hx
      obtain rfl := List.mem_singleton.mp hx
      exact h
  | cons a rest ih =>
      intro x hx
      rcases List.mem_cons.mp hx with rfl | hx
      · exact h
      · exact ih (hstep s a rest h) x hx

/-- The same for what is kept by the steps from positions that satisfy `P`: it holds at a
position when all positions before it do. -/
theorem run_invariant_until {next : σ → α → List α → σ} {I P : σ → List α → Prop}
    (hstep : ∀ s a rest, I s (a :: rest) → P s (a :: rest) → I (next s a rest) rest) {s : σ}
    {text : List α} (h : I s text) {pre post : List (σ × List α)} {x : σ × List α}
    (hrun : run next s text = pre ++ x :: post) (hP : ∀ y ∈ pre, P y.1 y.2) : I x.1 x.2 := by
  induction text generalizing s pre with
  | nil =>
      cases pre with
      | nil =>
          obtain ⟨rfl, -⟩ := List.cons.inj hrun
          exact h
      | cons y pre => simp [run] at hrun
  | cons a rest ih =>
      cases pre with
      | nil =>
          obtain ⟨rfl, -⟩ := List.cons.inj hrun
          exact h
      | cons y pre =>
          obtain ⟨rfl, hrest⟩ := List.cons.inj hrun
          have hhead : P s (a :: rest) := hP (s, a :: rest) List.mem_cons_self
          exact ih (hstep s a rest h hhead) hrest fun y hy => hP y (List.mem_cons_of_mem _ hy)

/-! ### Side by side -/

/-- Two scanners that go through a text side by side. -/
def pair (next : σ → α → List α → σ) (next' : τ → α → List α → τ) (s : σ × τ) (a : α)
    (rest : List α) : σ × τ :=
  (next s.1 a rest, next' s.2 a rest)

variable {next : σ → α → List α → σ} {next' : τ → α → List α → τ} {s : σ} {t : τ}
  {text : List α}

/-- A scanner goes through a text as one that it projects to. -/
theorem map_run {ρ : Type*} (step : ρ → α → List α → ρ) {φ : ρ → σ}
    (hφ : ∀ r a rest, φ (step r a rest) = next (φ r) a rest) (r : ρ) (text : List α) :
    (run step r text).map (fun x => (φ x.1, x.2)) = run next (φ r) text := by
  induction text generalizing r with
  | nil => rfl
  | cons a rest ih => rw [run, run, List.map_cons, ih, hφ]

theorem snd_mem_run {x : (σ × τ) × List α} (h : x ∈ run (pair next next') (s, t) text) :
    (x.1.2, x.2) ∈ run next' t text :=
  map_run (pair next next') (φ := Prod.snd) (fun _ _ _ => rfl) (s, t) text ▸
    List.mem_map_of_mem h

/-- Where one scanner comes by, the other does, and they have come by the same positions
before. -/
theorem run_pair_split (next' : τ → α → List α → τ) (t : τ) {pre post : List (σ × List α)}
    {x : σ × List α} (h : run next s text = pre ++ x :: post) :
    ∃ pre' t' post', run (pair next next') (s, t) text = pre' ++ ((x.1, t'), x.2) :: post' ∧
      pre'.map (fun y => (y.1.1, y.2)) = pre := by
  have hmap := map_run (pair next next') (φ := Prod.fst) (fun _ _ _ => rfl) (s, t) text
  rw [show run next (s, t).1 text = pre ++ x :: post from h] at hmap
  obtain ⟨pre', rest, hrun, hpre, hrest⟩ := List.map_eq_append_iff.mp hmap
  obtain ⟨y, post', rfl, rfl, -⟩ := List.map_eq_cons_iff.mp hrest
  exact ⟨pre', y.1.2, post', hrun, hpre⟩

/-! ### Texts one after the other -/

/-- The state after a text that another text follows. -/
def after (next : σ → α → List α → σ) (s : σ) : List α → List α → σ
  | [], _ => s
  | a :: before, text => after next (next s a (before ++ text)) before text

/-- Some symbol is read in a state in which it is looked for. -/
def reads (next : σ → α → List α → σ) (p : σ → α → Bool) : σ → List α → Bool
  | _, [] => false
  | s, a :: rest => p s a || reads next p (next s a rest) rest

theorem after_append (before middle : List α) :
    after next s (before ++ middle) text =
      after next (after next s before (middle ++ text)) middle text := by
  induction before generalizing s with
  | nil => rfl
  | cons a before ih => rw [List.cons_append, after, after, ih, List.append_assoc]

/-- Nothing is found in a text without the symbols that are looked for, and the search goes on
after it. -/
theorem reads_append_left {p : σ → α → Bool} {before : List α}
    (h : ∀ a ∈ before, ∀ s, p s a = false) :
    reads next p s (before ++ text) = reads next p (after next s before text) text := by
  induction before generalizing s with
  | nil => rfl
  | cons a before ih =>
      rw [List.cons_append, reads, h a (List.mem_cons_self ..), Bool.false_or, after]
      exact ih fun b hb => h b (List.mem_cons_of_mem _ hb)

/-- What follows a text and has none of the symbols that are looked for changes nothing, if the
scanner does not look into it. -/
theorem reads_append_right {p : σ → α → Bool} {ok : σ → Prop} {more : List α}
    (hok : ∀ s a rest, ok s → ok (next s a rest))
    (hlook : ∀ s a rest, ok s → next s a (rest ++ more) = next s a rest)
    (hmore : ∀ a ∈ more, ∀ s, p s a = false) (hs : ok s) :
    reads next p s (text ++ more) = reads next p s text := by
  induction text generalizing s with
  | nil =>
      rw [List.nil_append, ← List.append_nil more, reads_append_left hmore]
      rfl
  | cons a text ih =>
      rw [List.cons_append, reads, reads, hlook s a text hs, ih (hok s a text hs)]

end Scan
