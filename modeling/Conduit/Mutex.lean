import Conduit.Redlock
import Conduit.Transition

/-!
# Mutual Exclusion by the Lock Manager

Any number of calls of `Acquire`, each followed by a `Release` or not, on one key, against any
number of nodes. The calls take their steps in any order; there is one clock.

A call that wins holds a majority of the nodes from the moment it measures its elapsed time
until a TTL after its attempt began. Nobody disturbs the keys of its value during that time:
other calls have other values, and the call itself deletes its keys only in `Release`. Two
majorities share a node, and a node has one key.

## Main results

* `holdsOk_of_exec`: a call whose value nobody else draws keeps the keys it counts.
* `held_of_exec`: a lock that its holder does not release stays held.
* `windows_disjoint`: the windows in which two locks are valid do not overlap.
-/

namespace Conduit

open Transition

/-- The nodes and the calls on one key. -/
structure LockNet where
  clock : Time
  nodes : Nodes
  calls : ℕ → LockCall

/-- No key set and no call made. -/
def LockNet.init : LockNet where
  clock := 0
  nodes _ _ := none
  calls _ := .idle

/-- One atomic step. -/
inductive LockNetAct
  | tick (d : ℕ)
  | acquire (i : ℕ) (act : AcquireAct)
  | release (i : ℕ) (act : ReleaseAct)

/-- The state after a step of one call. -/
def LockNet.moved (s : LockNet) (i : ℕ) (nodes : Nodes) (call : LockCall) : LockNet :=
  { s with nodes := nodes, calls := Function.update s.calls i call }

/-- One step of the calls on a key. -/
def lockNetStep (m : Manager) (resource : String) (s : LockNet) : LockNetAct → Option LockNet
  | .tick d => some { s with clock := s.clock + d }
  | .acquire i act =>
    (acquireStep m s.clock s.nodes resource (s.calls i) act).map fun r => s.moved i r.1 r.2.1
  | .release i act =>
    (releaseStep m s.clock s.nodes resource (s.calls i) act).map fun r => s.moved i r.1 r.2.1

/-- The steps of the calls on a key, one by one. -/
inductive LockNetStep (m : Manager) (resource : String) (s : LockNet) :
    LockNetAct → LockNet → Prop
  | tick {d : ℕ} : LockNetStep m resource s (.tick d) { s with clock := s.clock + d }
  | acquire {i : ℕ} {act : AcquireAct} {nodes : Nodes} {call : LockCall} {result : Option Bool}
      (h : AcquireStep m s.clock s.nodes resource (s.calls i) act nodes call result) :
      LockNetStep m resource s (.acquire i act) (s.moved i nodes call)
  | release {i : ℕ} {act : ReleaseAct} {nodes : Nodes} {call : LockCall} {returned : Bool}
      (h : releaseStep m s.clock s.nodes resource (s.calls i) act =
        some (nodes, call, returned)) :
      LockNetStep m resource s (.release i act) (s.moved i nodes call)

/-- No call but `i` draws the value of `i`. -/
def OwnValue (as : List LockNetAct) (i : ℕ) : Prop :=
  ∀ rand j rand', .acquire i (.start rand) ∈ as → .acquire j (.start rand') ∈ as → j ≠ i →
    generateToken rand' ≠ generateToken rand

/-- When the attempt that won a lock began. -/
def LockCall.heldFrom : LockCall → Option Time
  | .held _ start _ => some start
  | _ => none

theorem held_of_heldFrom {call : LockCall} {start : Time} (h : call.heldFrom = some start) :
    ∃ value acquired, call = .held value start acquired := by
  cases call with
  | held value start' acquired =>
      obtain rfl := Option.some.inj h
      exact ⟨value, acquired, rfl⟩
  | _ => cases h

/-- The call has won its lock: the attempt that won began at `start`, and its elapsed time was
measured at `measured`. -/
def WonAt (m : Manager) (resource : String) (as : List LockNetAct) (i : ℕ)
    (start measured : Time) : Prop :=
  ∃ pre post s s', as = pre ++ .acquire i .decide :: post ∧
    exec (lockNetStep m resource) LockNet.init pre = some s ∧
    lockNetStep m resource s (.acquire i .decide) = some s' ∧
    (s'.calls i).heldFrom = some start ∧ s.clock = measured

section Step

variable {m : Manager} {resource : String} {as : List LockNetAct} {s s' : LockNet}
  {a : LockNetAct} {i j : ℕ}

@[simp] theorem LockNet.moved_self (s : LockNet) (i : ℕ) (nodes : Nodes) (call : LockCall) :
    (s.moved i nodes call).calls i = call := Function.update_self _ _ _

theorem LockNet.moved_of_ne (s : LockNet) (nodes : Nodes) (call : LockCall) (h : j ≠ i) :
    (s.moved i nodes call).calls j = s.calls j := Function.update_of_ne h _ _

/-- Every step of `lockNetStep` is one of the listed steps. -/
theorem lockNetStep_sound (h : lockNetStep m resource s a = some s') :
    LockNetStep m resource s a s' := by
  cases a with
  | tick d =>
      obtain rfl := Option.some.inj h
      exact .tick
  | acquire i act =>
      obtain ⟨⟨nodes, call, result⟩, hstep, rfl⟩ := Option.map_eq_some_iff.mp h
      exact .acquire (acquireStep_sound hstep)
  | release i act =>
      obtain ⟨⟨nodes, call, returned⟩, hstep, rfl⟩ := Option.map_eq_some_iff.mp h
      exact .release hstep

/-- The value of every call has been drawn by its start. -/
def LockNet.Drawn (as : List LockNetAct) (s : LockNet) : Prop :=
  ∀ i value, (s.calls i).value = some value →
    ∃ rand, .acquire i (.start rand) ∈ as ∧ value = generateToken rand

theorem step_drawn (hold : s.Drawn as) (h : lockNetStep m resource s a = some s') :
    s'.Drawn (as ++ [a]) := by
  have hkeep : ∀ k value, (s.calls k).value = some value →
      ∃ rand, .acquire k (.start rand) ∈ as ++ [a] ∧ value = generateToken rand := by
    intro k value hvalue
    obtain ⟨rand, hmem, hrand⟩ := hold k value hvalue
    exact ⟨rand, List.mem_append_left _ hmem, hrand⟩
  intro k value hvalue
  cases lockNetStep_sound h with
  | tick => exact hkeep k value hvalue
  | @acquire i act nodes call result hstep =>
      by_cases hk : k = i
      · subst hk
        rw [LockNet.moved_self] at hvalue
        rcases hstep.value with hsame | hnone | ⟨rand, rfl, hnew⟩
        · exact hkeep k value (by rw [← hsame]; exact hvalue)
        · rw [hnone] at hvalue
          cases hvalue
        · rw [hnew] at hvalue
          exact ⟨rand, by simp, (Option.some.inj hvalue).symm⟩
      · rw [LockNet.moved_of_ne _ _ _ hk] at hvalue
        exact hkeep k value hvalue
  | @release i act nodes call returned hstep =>
      by_cases hk : k = i
      · subst hk
        rw [LockNet.moved_self] at hvalue
        exact hkeep k value (releaseStep_value hstep hvalue)
      · rw [LockNet.moved_of_ne _ _ _ hk] at hvalue
        exact hkeep k value hvalue

theorem drawn_of_exec (h : exec (lockNetStep m resource) LockNet.init as = some s) :
    s.Drawn as := by
  refine exec_history (H := fun as s => s.Drawn as) ?_ (fun _ _ _ _ _ => step_drawn) h
  intro i value hvalue
  cases hvalue

/-- A call whose value nobody else draws has another value than every other call. -/
theorem value_ne (hown : OwnValue as i) (hs : s.Drawn as) (hji : j ≠ i) {value : String}
    (hvalue : (s.calls i).value = some value) : (s.calls j).value ≠ some value := by
  intro hother
  obtain ⟨rand, hmem, hrand⟩ := hs i value hvalue
  obtain ⟨rand', hmem', hrand'⟩ := hs j value hother
  exact hown rand j rand' hmem hmem' hji (hrand'.symm.trans hrand)

/-! ### What a call keeps -/

/-- The nodes that call `i` counts have its value, and it counts each once. -/
def LockNet.HoldsOk (m : Manager) (resource : String) (i : ℕ) (s : LockNet) : Prop :=
  (s.calls i).KeysOk m.cfg.ttl s.clock s.nodes resource ∧ (s.calls i).CountOk m s.clock

/-- A step of another call leaves the keys of call `i`. -/
theorem holdsOk_other {nodes : Nodes} {call : LockCall} (hold : s.HoldsOk m resource i)
    (hji : i ≠ j) (hframe : Undisturbed s.clock s.nodes nodes (s.calls j).value)
    (hne : ∀ value, (s.calls i).value = some value → (s.calls j).value ≠ some value) :
    (s.moved j nodes call).HoldsOk m resource i := by
  unfold LockNet.HoldsOk
  rw [LockNet.moved_of_ne _ _ _ hji]
  exact ⟨hold.1.frame hframe fun value hvalue heq => hne value hvalue heq.symm, hold.2⟩

/-- Every step leaves call `i` the keys it counts. -/
theorem step_holdsOk (hold : s.HoldsOk m resource i)
    (hne : ∀ j, j ≠ i → ∀ value, (s.calls i).value = some value →
      (s.calls j).value ≠ some value)
    (h : lockNetStep m resource s a = some s') : s'.HoldsOk m resource i := by
  cases lockNetStep_sound h with
  | @tick d =>
      have hle : s.clock ≤ s.clock + d := Int.le_add_of_nonneg_right (Int.natCast_nonneg d)
      exact ⟨hold.1.tick hle, hold.2.tick hle⟩
  | @acquire j act nodes call result hstep =>
      by_cases hij : i = j
      · subst hij
        unfold LockNet.HoldsOk
        rw [LockNet.moved_self]
        exact ⟨hstep.keysOk hold.1 hold.2, hstep.countOk hold.2⟩
      · exact holdsOk_other hold hij hstep.frame (hne j (Ne.symm hij))
  | @release j act nodes call returned hstep =>
      by_cases hij : i = j
      · subst hij
        unfold LockNet.HoldsOk
        rw [LockNet.moved_self]
        exact releaseStep_trivial hstep
      · exact holdsOk_other hold hij (releaseStep_frame hstep) (hne j (Ne.symm hij))

/-- **A call whose value nobody else draws keeps the keys it counts.** -/
theorem holdsOk_of_exec (hown : OwnValue as i)
    (h : exec (lockNetStep m resource) LockNet.init as = some s) : s.HoldsOk m resource i := by
  have hall := exec_history
    (H := fun bs s => (∀ b ∈ bs, b ∈ as) → s.HoldsOk m resource i) ?_ ?_ h
  · exact hall fun b hb => hb
  · exact fun _ => ⟨trivial, trivial⟩
  · intro bs u b v hu hold hb hsub
    refine step_holdsOk (hold fun x hx => hsub x (List.mem_append_left _ hx)) ?_ hb
    intro j hji value hvalue
    have hdrawn : u.Drawn as := by
      intro k x hx
      obtain ⟨rand, hmem, hrand⟩ := drawn_of_exec hu k x hx
      exact ⟨rand, hsub _ (List.mem_append_left _ hmem), hrand⟩
    exact value_ne hown hdrawn hji hvalue

/-- **A lock that its holder does not release stays held.** -/
theorem held_of_exec {value : String} {start : Time} {acquired : List ℕ}
    (hheld : s.calls i = .held value start acquired) (hnot : ∀ act, .release i act ∉ as)
    (h : exec (lockNetStep m resource) s as = some s') :
    s'.calls i = .held value start acquired := by
  refine AllSteps.exec_invariant (I := fun u => u.calls i = .held value start acquired)
    (P := fun _ a _ => ∀ act, a ≠ .release i act) ?_ ?_ hheld h
  · intro u a v hu ha hkeep
    cases lockNetStep_sound ha with
    | tick => exact hu
    | @acquire j act nodes call result hstep =>
        by_cases hij : i = j
        · -- `Acquire` has returned
          subst hij
          rw [hu] at hstep
          cases hstep
        · rw [LockNet.moved_of_ne _ _ _ hij]
          exact hu
    | @release j act nodes call returned hstep =>
        have hij : i ≠ j := fun hij => hkeep act (by rw [hij])
        rw [LockNet.moved_of_ne _ _ _ hij]
        exact hu
  · rintro pre a post u v rfl - - act rfl
    exact hnot act (by simp)

end Step

/-! ### Mutual exclusion -/

/-- The quorum that `NewManager` computes is a majority. -/
theorem clients_lt_newQuorum {cfg : LockConfig} (h : cfg.quorum ≤ 0) (clients : ℕ) :
    ((newManager clients cfg).clients : ℤ) < 2 * (newManager clients cfg).cfg.quorum := by
  simp only [newManager, if_pos h]
  omega

/-- Once two calls of different values both hold their locks, the TTL of one of them is over. -/
theorem expired_of_held {m : Manager} {resource : String} {as : List LockNetAct} {s : LockNet}
    {i j : ℕ} {value value' : String} {start start' : Time} {acquired acquired' : List ℕ}
    (hmajority : (m.clients : ℤ) < 2 * m.cfg.quorum) (hij : i ≠ j)
    (hown : OwnValue as i) (hown' : OwnValue as j)
    (h : exec (lockNetStep m resource) LockNet.init as = some s)
    (hheld : s.calls i = .held value start acquired)
    (hheld' : s.calls j = .held value' start' acquired') :
    start + m.cfg.ttl ≤ s.clock ∨ start' + m.cfg.ttl ≤ s.clock := by
  by_contra hlive
  obtain ⟨hlive, hlive'⟩ := not_or.mp hlive
  obtain ⟨hkeys, hcount⟩ := holdsOk_of_exec hown h
  obtain ⟨hkeys', hcount'⟩ := holdsOk_of_exec hown' h
  rw [hheld] at hkeys hcount
  rw [hheld'] at hkeys' hcount'
  have hne : value ≠ value' := by
    intro heq
    refine value_ne hown (drawn_of_exec h) (Ne.symm hij) (by rw [hheld]; rfl) ?_
    rw [hheld', heq]
    rfl
  exact keys_disjoint hmajority hne hcount hcount' hkeys hkeys' (not_le.mp hlive)
    (not_le.mp hlive')

/-- What nobody else draws in a run, nobody else draws in a part of it. -/
theorem OwnValue.mono {as bs : List LockNetAct} {i : ℕ} (h : OwnValue as i)
    (hsub : ∀ b ∈ bs, b ∈ as) : OwnValue bs i :=
  fun rand j rand' hi hj hji => h rand j rand' (hsub _ hi) (hsub _ hj) hji

/-- The windows of two locks: from the measured time to a TTL after the start. -/
def WindowsOverlap (ttl : Duration) (start measured start' measured' : Time) : Prop :=
  ∃ t, (measured ≤ t ∧ t < start + ttl) ∧ (measured' ≤ t ∧ t < start' + ttl)

/-- A lock that is won while another is held is won after the window of the other. -/
theorem not_overlap_of_later {m : Manager} {resource : String}
    {as pre mid post : List LockNetAct} {s s' u u' : LockNet} {i j : ℕ} {value value' : String}
    {start start' : Time} {acquired acquired' : List ℕ}
    (hmajority : (m.clients : ℤ) < 2 * m.cfg.quorum) (hij : i ≠ j) (hown : OwnValue as i)
    (hown' : OwnValue as j)
    (has : as = pre ++ .acquire i .decide :: mid ++ .acquire j .decide :: post)
    (hpre : exec (lockNetStep m resource) LockNet.init pre = some s)
    (hs : lockNetStep m resource s (.acquire i .decide) = some s')
    (hheld : s'.calls i = .held value start acquired)
    (hmid : exec (lockNetStep m resource) LockNet.init (pre ++ .acquire i .decide :: mid) = some u)
    (hu : lockNetStep m resource u (.acquire j .decide) = some u')
    (hheld' : u'.calls j = .held value' start' acquired')
    (hnot : ∀ act, .release i act ∉ as) :
    ¬ WindowsOverlap m.cfg.ttl start s.clock start' u.clock := by
  rintro ⟨t, ⟨-, hlt⟩, hle, hlt'⟩
  have hsub : ∀ b ∈ pre ++ .acquire i .decide :: mid ++ [.acquire j .decide], b ∈ as := by
    intro b hb
    rw [has, List.append_cons]
    exact List.mem_append_left _ hb
  have hnotMid : ∀ act, .release i act ∉ mid :=
    fun act hact => hnot act (hsub _ (by simp [hact]))
  have hrest : exec (lockNetStep m resource) s' mid = some u := by
    obtain ⟨w, hw, hrest⟩ := exec_cons_iff.mp (exec_drop hmid hpre)
    rw [hs] at hw
    obtain rfl := Option.some.inj hw
    exact hrest
  have hboth : exec (lockNetStep m resource) LockNet.init
      (pre ++ .acquire i .decide :: mid ++ [.acquire j .decide]) = some u' :=
    exec_concat_iff.mpr ⟨u, hmid, hu⟩
  have hstill : u'.calls i = .held value start acquired ∧ u'.clock = u.clock := by
    cases lockNetStep_sound hu with
    | acquire hstep =>
        rw [LockNet.moved_of_ne _ _ _ hij]
        exact ⟨held_of_exec hheld hnotMid hrest, rfl⟩
  rcases expired_of_held hmajority hij (hown.mono hsub) (hown'.mono hsub) hboth hstill.1
    hheld' with hover | hover
  · rw [hstill.2] at hover
    exact absurd (lt_of_le_of_lt (le_trans hover hle) hlt) (lt_irrefl _)
  · rw [hstill.2] at hover
    exact absurd (lt_of_le_of_lt (le_trans hover hle) hlt') (lt_irrefl _)

/-- **Mutual exclusion.** With the quorum that `NewManager` computes, two locks that their
holders do not release are not valid at the same time. -/
theorem windows_disjoint (clients : ℕ) (cfg : LockConfig) (hquorum : cfg.quorum ≤ 0)
    (resource : String) (as : List LockNetAct) {i j : ℕ} (hij : i ≠ j) (hown : OwnValue as i)
    (hown' : OwnValue as j)
    {start measured start' measured' : Time}
    (hwon : WonAt (newManager clients cfg) resource as i start measured)
    (hwon' : WonAt (newManager clients cfg) resource as j start' measured')
    (hnot : ∀ act, .release i act ∉ as) (hnot' : ∀ act, .release j act ∉ as) :
    ¬ WindowsOverlap (newManager clients cfg).cfg.ttl start measured start' measured' := by
  have hmajority := clients_lt_newQuorum hquorum clients
  obtain ⟨pre, post, s, s', has, hpre, hs, hfrom, rfl⟩ := hwon
  obtain ⟨pre', post', u, u', has', hpre', hu, hfrom', rfl⟩ := hwon'
  obtain ⟨value, acquired, hheld⟩ := held_of_heldFrom hfrom
  obtain ⟨value', acquired', hheld'⟩ := held_of_heldFrom hfrom'
  rcases append_cons_cases (has.symm.trans has') with ⟨-, hsame⟩ | ⟨mid, rfl⟩ | ⟨mid, rfl⟩
  · injection hsame with hsame
    exact absurd hsame hij
  · exact not_overlap_of_later hmajority hij hown hown' has' hpre hs hheld hpre' hu hheld' hnot
  · rintro ⟨x, hx, hx'⟩
    exact not_overlap_of_later hmajority (Ne.symm hij) hown' hown has hpre' hu hheld' hpre hs
      hheld hnot' ⟨x, hx', hx⟩

/-- Call `i` asks three nodes, and all of them say yes. -/
def winRound (i : ℕ) (b : UInt8) : List LockNetAct :=
  [.acquire i (.start (sampleRandom b)), .acquire i (.setNX .answered),
    .acquire i (.setNX .answered), .acquire i (.setNX .answered), .acquire i .decide]

/-- A call wins, ten seconds pass, and another call wins. -/
def twoRounds : List LockNetAct := winRound 0 1 ++ .tick 10000000000 :: winRound 1 2

theorem wonAt_of_checked {m : Manager} {resource : String} {as : List LockNetAct}
    (pre post : List LockNetAct) {i : ℕ} {start measured : Time}
    (has : as = pre ++ .acquire i .decide :: post)
    (h : (exec (lockNetStep m resource) LockNet.init pre).any (fun s =>
      s.clock = measured &&
        (lockNetStep m resource s (.acquire i .decide)).any fun s' =>
          (s'.calls i).heldFrom = some start) = true) :
    WonAt m resource as i start measured := by
  obtain ⟨s, hs, hs'⟩ := (Option.any_eq_true _ _).mp h
  rw [Bool.and_eq_true] at hs'
  obtain ⟨s', hstep, hfrom⟩ := (Option.any_eq_true _ _).mp hs'.2
  exact ⟨pre, post, s, s', has, hs, hstep, of_decide_eq_true hfrom, of_decide_eq_true hs'.1⟩

/-- Two locks on three nodes, the second won when the first has run out. -/
theorem windows_disjoint_twoRounds :
    WonAt (newManager 3 ⟨0, 0, 0, 0, 0⟩) "job:exec:1" twoRounds 0 0 0 ∧
      WonAt (newManager 3 ⟨0, 0, 0, 0, 0⟩) "job:exec:1" twoRounds 1 10000000000 10000000000 ∧
      ¬ WindowsOverlap (newManager 3 ⟨0, 0, 0, 0, 0⟩).cfg.ttl 0 0 10000000000 10000000000 := by
  have hwon : WonAt (newManager 3 ⟨0, 0, 0, 0, 0⟩) "job:exec:1" twoRounds 0 0 0 :=
    wonAt_of_checked (twoRounds.take 4) (twoRounds.drop 5) rfl (by decide +kernel)
  have hwon' : WonAt (newManager 3 ⟨0, 0, 0, 0, 0⟩) "job:exec:1" twoRounds 1 10000000000
      10000000000 :=
    wonAt_of_checked (twoRounds.take 10) [] rfl (by decide +kernel)
  have htokens : generateToken (sampleRandom 1) ≠ generateToken (sampleRandom 2) := by
    decide +kernel
  have hown : OwnValue twoRounds 0 ∧ OwnValue twoRounds 1 := by
    constructor
    · rintro rand j rand' hi hj hne
      simp [twoRounds, winRound] at hi hj
      rcases hj with ⟨rfl, rfl⟩ | ⟨rfl, rfl⟩
      · exact absurd rfl hne
      · rw [hi]
        exact htokens.symm
    · rintro rand j rand' hi hj hne
      simp [twoRounds, winRound] at hi hj
      rcases hj with ⟨rfl, rfl⟩ | ⟨rfl, rfl⟩
      · rw [hi]
        exact htokens
      · exact absurd rfl hne
  refine ⟨hwon, hwon', windows_disjoint 3 ⟨0, 0, 0, 0, 0⟩ (le_refl _) "job:exec:1" twoRounds
    Nat.zero_ne_one hown.1 hown.2 hwon hwon' ?_ ?_⟩
  · intro act
    simp [twoRounds, winRound]
  · intro act
    simp [twoRounds, winRound]

end Conduit
