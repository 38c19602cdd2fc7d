import Mathlib.Data.List.Induction

/-!
# Runs of a Partial Step Function

A system is given by a partial step function `next : σ → α → Option σ`: `next s a` is the
state after the action `a`, or `none` when `a` is not enabled in `s`. All nondeterminism
sits in the choice of the action, so a run is a list of actions and `exec` replays it.
Nothing here refers to a particular system.

## Main results

* `exec_append_iff`: a run splits at every position into two runs.
* `exec_invariant`: a predicate kept by every step is kept by every run.
* `exec_history`: the same for predicates that also read the actions taken so far.
* `exec_rounds`: a round repeated.
* `exists_step_of_change`: a predicate that is false before a run and true after it is
  switched on by one of its steps.
* `allSteps_congr`: two step predicates that agree on the steps of a run hold along it
  together.
* `AllSteps.verdict`: where a step of one kind loses a predicate for good, the end of a run tells
  whether it has such a step.
* `not_mem_of_drawn`: in a run that draws distinct values, a value just drawn is new.
* `logSteps_append`, `mem_logSteps_iff`: the log that the steps of a run write.
* `AllSteps.simulation`, `exec_simulation`: a system whose steps are followed by runs of another
  system, or project to them, is followed by it, or projects to it, run by run.
* `exec_logSteps`: a system whose log is a run of another system, step by step, refines it.
-/

namespace Transition

variable {σ α τ β : Type*} {next : σ → α → Option σ}

/-- Replay a list of actions from a state; `none` as soon as one of them is not
enabled. -/
def exec (next : σ → α → Option σ) : σ → List α → Option σ
  | s, [] => some s
  | s, a :: as => (next s a).bind fun s' => exec next s' as

@[simp] theorem exec_nil (s : σ) : exec next s [] = some s := rfl

/-- A nonempty run takes its first step and continues. -/
theorem exec_cons_iff {s t : σ} {a : α} {as : List α} :
    exec next s (a :: as) = some t ↔ ∃ u, next s a = some u ∧ exec next u as = some t := by
  simp only [exec, Option.bind_eq_some_iff]

/-- A run of one action is a step. -/
@[simp] theorem exec_singleton (s : σ) (a : α) : exec next s [a] = next s a := by
  simp only [exec]
  cases next s a <;> rfl

/-- A run splits at every position. -/
theorem exec_append_iff {s t : σ} {as bs : List α} :
    exec next s (as ++ bs) = some t ↔
      ∃ u, exec next s as = some u ∧ exec next u bs = some t := by
  induction as generalizing s with
  | nil => simp
  | cons a as ih =>
      rw [List.cons_append, exec_cons_iff]
      constructor
      · rintro ⟨u, hu, hrest⟩
        obtain ⟨v, hv, ht⟩ := ih.mp hrest
        exact ⟨v, exec_cons_iff.mpr ⟨u, hu, hv⟩, ht⟩
      · rintro ⟨v, hv, ht⟩
        obtain ⟨u, hu, hv⟩ := exec_cons_iff.mp hv
        exact ⟨u, hu, ih.mpr ⟨v, hv, ht⟩⟩

/-- The rest of a run, once its beginning is known. -/
theorem exec_drop {s t u : σ} {as bs : List α} (h : exec next s (as ++ bs) = some t)
    (has : exec next s as = some u) : exec next u bs = some t := by
  obtain ⟨u', hu', hrest⟩ := exec_append_iff.mp h
  rw [has] at hu'
  obtain rfl := Option.some.inj hu'
  exact hrest

/-- A run followed by one more step. -/
theorem exec_concat_iff {s t : σ} {as : List α} {a : α} :
    exec next s (as ++ [a]) = some t ↔
      ∃ u, exec next s as = some u ∧ next u a = some t := by
  simp only [exec_append_iff, exec_singleton]

/-- **Invariants.** A predicate kept by every step is kept by every run. -/
theorem exec_invariant {I : σ → Prop}
    (hstep : ∀ s a s', I s → next s a = some s' → I s')
    {s t : σ} {as : List α} (hs : I s) (h : exec next s as = some t) : I t := by
  induction as generalizing s with
  | nil =>
      obtain rfl : s = t := Option.some.inj h
      exact hs
  | cons a as ih =>
      obtain ⟨u, hu, hrest⟩ := exec_cons_iff.mp h
      exact ih (hstep s a u hs hu) hrest

/-- **Invariants of the history.** A predicate on the actions taken so far and the state
they led to, kept by every step, holds of every run. -/
theorem exec_history {H : List α → σ → Prop} {s : σ} (hs : H [] s)
    (hstep : ∀ as u a v, exec next s as = some u → H as u → next u a = some v →
      H (as ++ [a]) v)
    {as : List α} {t : σ} (h : exec next s as = some t) : H as t := by
  induction as using List.reverseRecOn generalizing t with
  | nil =>
      obtain rfl : s = t := Option.some.inj h
      exact hs
  | append_singleton as a ih =>
      obtain ⟨u, hu, ht⟩ := exec_concat_iff.mp h
      exact hstep as u a t hu (ih hu) ht

/-- A round that leads from each state of a sequence to the next, repeated. -/
theorem exec_rounds {S : ℕ → σ} {round : List α} {n : ℕ}
    (h : ∀ i < n, exec next (S i) round = some (S (i + 1))) :
    exec next (S 0) (List.replicate n round).flatten = some (S n) := by
  induction n with
  | zero => rfl
  | succ n ih =>
      rw [List.replicate_succ', List.flatten_append, List.flatten_singleton, exec_append_iff]
      exact ⟨S n, ih fun i hi => h i (Nat.lt_succ_of_lt hi), h n (Nat.lt_succ_self n)⟩

/-- A predicate that is false before a run and true after it is switched on by one of the
run's steps. -/
theorem exists_step_of_change {P : σ → Prop} {s t : σ} {as : List α}
    (hs : ¬ P s) (ht : P t) (h : exec next s as = some t) :
    ∃ pre a post u v, as = pre ++ a :: post ∧ exec next s pre = some u ∧
      next u a = some v ∧ exec next v post = some t ∧ ¬ P u ∧ P v := by
  induction as generalizing s with
  | nil =>
      obtain rfl : s = t := Option.some.inj h
      exact absurd ht hs
  | cons a as ih =>
      obtain ⟨w, hw, hrest⟩ := exec_cons_iff.mp h
      by_cases hP : P w
      · exact ⟨[], a, as, s, w, rfl, rfl, hw, hrest, hs, hP⟩
      · obtain ⟨pre, b, post, u, v, rfl, hpre, hb, hpost, hu, hv⟩ := ih hP hrest
        exact ⟨a :: pre, b, post, u, v, rfl, exec_cons_iff.mpr ⟨w, hw, hpre⟩, hb, hpost,
          hu, hv⟩

/-- Where a step of `as ++ [a]` stands: it is the last one, or a step of `as`. -/
theorem concat_eq_append_cons {as pre post : List α} {a b : α}
    (h : as ++ [a] = pre ++ b :: post) :
    (post = [] ∧ as = pre ∧ a = b) ∨ ∃ post', as = pre ++ b :: post' := by
  rcases List.eq_nil_or_concat post with rfl | ⟨post', c, rfl⟩
  · obtain ⟨has, hab⟩ := List.append_inj' h rfl
    exact .inl ⟨rfl, has, (List.cons.inj hab).1⟩
  · rw [List.concat_eq_append, ← List.cons_append, ← List.append_assoc] at h
    exact .inr ⟨post', (List.append_inj' h rfl).1⟩

/-- Two steps of a run are the same, or one comes first. -/
theorem append_cons_cases {pre pre' post post' : List α} {a b : α}
    (h : pre ++ a :: post = pre' ++ b :: post') :
    (pre = pre' ∧ a = b) ∨ (∃ mid, pre' = pre ++ a :: mid) ∨ ∃ mid, pre = pre' ++ b :: mid := by
  rcases List.append_eq_append_iff.mp h with ⟨mid, rfl, hmid⟩ | ⟨mid, rfl, hmid⟩
  · cases mid with
    | nil => exact .inl ⟨(List.append_nil _).symm, (List.cons.inj hmid).1⟩
    | cons c mid =>
        obtain ⟨rfl, -⟩ := List.cons.inj hmid
        exact .inr (.inl ⟨mid, rfl⟩)
  · cases mid with
    | nil => exact .inl ⟨List.append_nil _, (List.cons.inj hmid).1.symm⟩
    | cons c mid =>
        obtain ⟨rfl, -⟩ := List.cons.inj hmid
        exact .inr (.inr ⟨mid, rfl⟩)

/-! ### Properties of every step and of every state of a run -/

/-- Every step of the run of `as` from `s` satisfies `P`. -/
def AllSteps (next : σ → α → Option σ) (P : σ → α → σ → Prop) (s : σ) (as : List α) : Prop :=
  ∀ pre a post u v, as = pre ++ a :: post → exec next s pre = some u →
    next u a = some v → P u a v

/-- Every state the run of `as` from `s` passes through satisfies `P`. -/
def AllStates (next : σ → α → Option σ) (P : σ → Prop) (s : σ) (as : List α) : Prop :=
  ∀ pre post u, as = pre ++ post → exec next s pre = some u → P u

/-- The states of the beginning of a run are states of the run. -/
theorem AllStates.of_append {P : σ → Prop} {s : σ} {as bs : List α}
    (h : AllStates next P s (as ++ bs)) : AllStates next P s as := by
  rintro pre post u rfl hpre
  exact h pre (post ++ bs) u (List.append_assoc _ _ _) hpre

/-- The last state of a run is one of its states. -/
theorem AllStates.last {P : σ → Prop} {s t : σ} {as : List α} (h : AllStates next P s as)
    (has : exec next s as = some t) : P t :=
  h as [] t (List.append_nil _).symm has

/-- Two step predicates that agree on the steps of a run hold along it together. -/
theorem allSteps_congr {P Q : σ → α → σ → Prop} {s : σ} {as : List α}
    (hPQ : ∀ pre a post u v, as = pre ++ a :: post → exec next s pre = some u →
      next u a = some v → (P u a v ↔ Q u a v)) :
    AllSteps next P s as ↔ AllSteps next Q s as := by
  constructor
  · intro h pre a post u v has hpre ha
    exact (hPQ pre a post u v has hpre ha).mp (h pre a post u v has hpre ha)
  · intro h pre a post u v has hpre ha
    exact (hPQ pre a post u v has hpre ha).mpr (h pre a post u v has hpre ha)

/-- Test every step of a run by its state and action. -/
def checkSteps (next : σ → α → Option σ) (p : σ → α → Bool) : σ → List α → Bool
  | _, [] => true
  | s, a :: as => p s a && (next s a).all fun s' => checkSteps next p s' as

/-- A run that passes the test satisfies it at every step. -/
theorem allSteps_of_checkSteps {p : σ → α → Bool} {s : σ} {as : List α}
    (h : checkSteps next p s as = true) :
    AllSteps next (fun u a _ => p u a = true) s as := by
  induction as generalizing s with
  | nil =>
      intro pre a post u v has
      simp at has
  | cons b bs ih =>
      rw [checkSteps, Bool.and_eq_true] at h
      intro pre a post u v has hpre ha
      cases pre with
      | nil =>
          obtain rfl := Option.some.inj hpre
          obtain rfl : b = a := (List.cons.inj has).1
          exact h.1
      | cons c pre =>
          obtain ⟨rfl, hbs⟩ := List.cons.inj has
          obtain ⟨w, hw, hrest⟩ := exec_cons_iff.mp hpre
          rw [hw, Option.all_some] at h
          exact ih h.2 pre a post u v hbs hrest ha

/-- A run none of whose steps is of the tested kind. -/
theorem allSteps_of_checkSteps_not {p : σ → α → Bool} {s : σ} {as : List α}
    (h : checkSteps next (fun u a => !p u a) s as = true) :
    AllSteps next (fun u a _ => p u a = false) s as := by
  simpa only [Bool.not_eq_true'] using allSteps_of_checkSteps h

/-- The steps of a prefix of a run are steps of the run. -/
theorem AllSteps.of_append {P : σ → α → σ → Prop} {s : σ} {as bs : List α}
    (h : AllSteps next P s (as ++ bs)) : AllSteps next P s as := by
  intro pre a post u v has hpre ha
  refine h pre a (post ++ bs) u v ?_ hpre ha
  rw [has, List.append_assoc, List.cons_append]

/-- The steps of the rest of a run are steps of the run. -/
theorem AllSteps.drop {P : σ → α → σ → Prop} {s t : σ} {as bs : List α}
    (h : AllSteps next P s (as ++ bs)) (has : exec next s as = some t) :
    AllSteps next P t bs := by
  intro pre a post u v hbs hpre ha
  refine h (as ++ pre) a post u v ?_ (exec_append_iff.mpr ⟨t, has, hpre⟩) ha
  rw [hbs, List.append_assoc]

/-- The steps of a run and one more step. -/
theorem AllSteps.concat {P : σ → α → σ → Prop} {s u v : σ} {as : List α} {a : α}
    (h : AllSteps next P s as) (has : exec next s as = some u) (ha : next u a = some v)
    (hP : P u a v) : AllSteps next P s (as ++ [a]) := by
  intro pre b post x y heq hpre hb
  rcases concat_eq_append_cons heq with ⟨-, rfl, rfl⟩ | ⟨post', has'⟩
  · rw [has] at hpre
    obtain rfl := Option.some.inj hpre
    rw [ha] at hb
    obtain rfl := Option.some.inj hb
    exact hP
  · exact h pre b post' x y has' hpre hb

/-- The steps of a run are its first step and those of its rest. -/
theorem allSteps_cons_iff {P : σ → α → σ → Prop} {s u : σ} {a : α} {as : List α}
    (ha : next s a = some u) : AllSteps next P s (a :: as) ↔ P s a u ∧ AllSteps next P u as := by
  constructor
  · intro h
    have hau : exec next s [a] = some u := by rw [exec_singleton, ha]
    have h' : AllSteps next P s ([a] ++ as) := h
    exact ⟨h [] a as s u rfl rfl ha, h'.drop hau⟩
  · rintro ⟨hP, hall⟩ pre b post v w has hpre hb
    cases pre with
    | nil =>
        obtain ⟨rfl, -⟩ := List.cons.inj has
        obtain rfl := Option.some.inj hpre
        rw [ha] at hb
        obtain rfl := Option.some.inj hb
        exact hP
    | cons c pre =>
        obtain ⟨rfl, has'⟩ := List.cons.inj has
        obtain ⟨u', hu', hrest⟩ := exec_cons_iff.mp hpre
        rw [ha] at hu'
        obtain rfl := Option.some.inj hu'
        exact hall pre b post v w has' hrest hb

/-- A run all of whose steps satisfy `P` keeps every predicate that the `P`-steps keep. -/
theorem AllSteps.exec_invariant {I : σ → Prop} {P : σ → α → σ → Prop}
    (hstep : ∀ u a v, I u → next u a = some v → P u a v → I v)
    {s t : σ} {as : List α} (hall : AllSteps next P s as) (hs : I s)
    (h : exec next s as = some t) : I t := by
  induction as generalizing s with
  | nil =>
      obtain rfl : s = t := Option.some.inj h
      exact hs
  | cons a as ih =>
      obtain ⟨u, hu, hrest⟩ := exec_cons_iff.mp h
      obtain ⟨hP, hall'⟩ := (allSteps_cons_iff hu).mp hall
      exact ih hall' (hstep s a u hs hu hP) hrest

/-- **Verdicts.** Along the `Q`-steps of a run a `P`-step keeps the predicate `I`, and any other
step loses it for a predicate `B` that is kept from then on. So the end of the run tells whether
all its steps are `P`-steps. -/
theorem AllSteps.verdict {I B : σ → Prop} {P Q : σ → α → σ → Prop}
    (hstep : ∀ u a v, I u → next u a = some v → Q u a v →
      (P u a v ∧ I v) ∨ (¬ P u a v ∧ B v))
    (hbad : ∀ u a v, B u → next u a = some v → Q u a v → B v)
    {s t : σ} {as : List α} (hall : AllSteps next Q s as) (hs : I s)
    (h : exec next s as = some t) :
    (AllSteps next P s as ∧ I t) ∨ (¬ AllSteps next P s as ∧ B t) := by
  induction as generalizing s with
  | nil =>
      obtain rfl : s = t := Option.some.inj h
      exact .inl ⟨fun pre a post u v has => absurd has (by simp), hs⟩
  | cons a as ih =>
      obtain ⟨u, hu, hrest⟩ := exec_cons_iff.mp h
      obtain ⟨hQ, hall'⟩ := (allSteps_cons_iff hu).mp hall
      rw [allSteps_cons_iff hu]
      rcases hstep s a u hs hu hQ with ⟨hP, hI⟩ | ⟨hP, hB⟩
      · rw [and_iff_right hP]
        exact ih hall' hI hrest
      · exact .inr ⟨fun hand => hP hand.1, hall'.exec_invariant hbad hB hrest⟩

/-! ### What a run logs -/

/-- The entries that the steps of a run write, in order: a step from `s` by `a` writes
`f s a`. -/
def logSteps (next : σ → α → Option σ) (f : σ → α → List β) : σ → List α → List β
  | _, [] => []
  | s, a :: as =>
    match next s a with
    | none => []
    | some s' => f s a ++ logSteps next f s' as

/-- The log of a run is that of its beginning and then that of its rest. -/
theorem logSteps_append {f : σ → α → List β} {s u : σ} {as : List α}
    (h : exec next s as = some u) (bs : List α) :
    logSteps next f s (as ++ bs) = logSteps next f s as ++ logSteps next f u bs := by
  induction as generalizing s with
  | nil =>
      obtain rfl : s = u := Option.some.inj h
      rfl
  | cons b as ih =>
      obtain ⟨w, hw, hrest⟩ := exec_cons_iff.mp h
      simp only [List.cons_append, logSteps, hw, ih hrest, List.append_assoc]

/-- The log after one more step. -/
theorem logSteps_concat {f : σ → α → List β} {s u v : σ} {as : List α} {a : α}
    (h : exec next s as = some u) (ha : next u a = some v) :
    logSteps next f s (as ++ [a]) = logSteps next f s as ++ f u a := by
  rw [logSteps_append h]
  simp only [logSteps, ha, List.append_nil]

/-- The entries of the log are those its steps write. -/
theorem mem_logSteps_iff {f : σ → α → List β} {s t : σ} {as : List α} {x : β}
    (h : exec next s as = some t) :
    x ∈ logSteps next f s as ↔ ∃ pre a post u v, as = pre ++ a :: post ∧
      exec next s pre = some u ∧ next u a = some v ∧ x ∈ f u a := by
  induction as using List.reverseRecOn generalizing t with
  | nil => simp [logSteps]
  | append_singleton as a ih =>
      obtain ⟨u, hu, ha⟩ := exec_concat_iff.mp h
      rw [logSteps_concat hu ha, List.mem_append, ih hu]
      constructor
      · rintro (⟨pre, b, post, w, v, rfl, hpre, hb, hx⟩ | hx)
        · exact ⟨pre, b, post ++ [a], w, v, by simp, hpre, hb, hx⟩
        · exact ⟨as, a, [], u, t, rfl, hu, ha, hx⟩
      · rintro ⟨pre, b, post, w, v, heq, hpre, hb, hx⟩
        rcases concat_eq_append_cons heq with ⟨-, rfl, rfl⟩ | ⟨post', has⟩
        · rw [hu] at hpre
          obtain rfl := Option.some.inj hpre
          exact .inr hx
        · exact .inl ⟨pre, b, post', w, v, has, hpre, hb, hx⟩

/-! ### Values drawn along a run

Each action may draw values, `draw a`, from a random source. A run `as` draws the values
`as.flatMap draw`, and results that rest on their freshness assume them distinct. -/

/-- The values of a run are distinct only if those of its beginning are. -/
theorem nodup_of_append {draw : α → List β} {as bs : List α}
    (h : ((as ++ bs).flatMap draw).Nodup) : (as.flatMap draw).Nodup := by
  rw [List.flatMap_append] at h
  exact (List.nodup_append.mp h).1

/-- A value drawn by the last action of a run with distinct values is new. -/
theorem not_mem_of_drawn {draw : α → List β} {as : List α} {a : α}
    (h : ((as ++ [a]).flatMap draw).Nodup) {x : β} (hx : x ∈ draw a) :
    x ∉ as.flatMap draw := by
  rw [List.flatMap_append, List.flatMap_singleton] at h
  exact fun hold => (List.nodup_append.mp h).2.2 x hold x hx rfl

/-! ### Simulation -/

/-- **Simulation.** When every `Q`-step of one system is followed by a run of another system that
restores the relation between them, so is every run of `Q`-steps. -/
theorem AllSteps.simulation {next' : τ → β → Option τ} {R : σ → τ → Prop}
    {Q : σ → α → σ → Prop}
    (hsim : ∀ s a s' u, R s u → next s a = some s' → Q s a s' →
      ∃ bs u', exec next' u bs = some u' ∧ R s' u')
    {s t : σ} {as : List α} {u : τ} (hall : AllSteps next Q s as) (hR : R s u)
    (h : exec next s as = some t) : ∃ bs u', exec next' u bs = some u' ∧ R t u' := by
  induction as generalizing s u with
  | nil =>
      obtain rfl : s = t := Option.some.inj h
      exact ⟨[], u, rfl, hR⟩
  | cons a as ih =>
      obtain ⟨v, hv, hrest⟩ := exec_cons_iff.mp h
      obtain ⟨hQ, hall'⟩ := (allSteps_cons_iff hv).mp hall
      obtain ⟨bs, w, hbs, hRv⟩ := hsim s a v u hR hv hQ
      obtain ⟨cs, x, hcs, hRt⟩ := ih hall' hRv hrest
      exact ⟨bs ++ cs, x, exec_append_iff.mpr ⟨w, hbs, hcs⟩, hRt⟩

/-- When every step of one system projects to a run of another, every run does: the projected end
states are joined by a run. -/
theorem exec_simulation {next' : τ → β → Option τ} (proj : τ → σ)
    (hsim : ∀ s b s', next' s b = some s' → ∃ as, exec next (proj s) as = some (proj s'))
    {s t : τ} {bs : List β} (h : exec next' s bs = some t) :
    ∃ as, exec next (proj s) as = some (proj t) := by
  have hall : AllSteps next' (fun _ _ _ => True) s bs := fun _ _ _ _ _ _ _ _ => trivial
  have hsim' : ∀ x b x' y, y = proj x → next' x b = some x' → True →
      ∃ as y', exec next y as = some y' ∧ y' = proj x' := by
    rintro x b x' _ rfl hb -
    obtain ⟨as, has⟩ := hsim x b x' hb
    exact ⟨as, _, has, rfl⟩
  obtain ⟨as, _, has, rfl⟩ := hall.simulation hsim' rfl h
  exact ⟨as, has⟩

/-- **Refinement.** When what each step logs is a run of another system between the abstractions of
its two states, the log of a whole run is one. -/
theorem exec_logSteps {next' : τ → β → Option τ} {f : σ → α → List β} (abs : σ → τ)
    {I : σ → Prop} (hinv : ∀ s a s', I s → next s a = some s' → I s')
    (hsim : ∀ s a s', I s → next s a = some s' → exec next' (abs s) (f s a) = some (abs s'))
    {s t : σ} {as : List α} (hs : I s) (h : exec next s as = some t) :
    exec next' (abs s) (logSteps next f s as) = some (abs t) := by
  induction as generalizing s with
  | nil =>
      obtain rfl : s = t := Option.some.inj h
      rfl
  | cons a as ih =>
      obtain ⟨u, hu, hrest⟩ := exec_cons_iff.mp h
      simp only [logSteps, hu]
      exact exec_append_iff.mpr ⟨abs u, hsim s a u hs hu, ih (hinv s a u hs hu) hrest⟩

end Transition
