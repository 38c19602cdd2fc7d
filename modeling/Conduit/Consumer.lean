import Mathlib.Algebra.Order.Ring.Int
import Conduit.Service
import Conduit.Transition

/-!
# The Kafka Consumer

`cgHandler.ConsumeClaim` takes the messages of a partition one after the other, calls
`kafkaJobHandler.Handle` and marks the message if that succeeds. A message the worker pool
refuses is left unmarked, and the loop goes on to the next one.

Marking is cumulative: `MarkMessage` raises the marked offset of the partition, and a commit,
which may come at any moment, covers every smaller offset. So the next message that is handled
takes the refused one with it.

## Main results

* `marked_le`, `lt_marked`: the marked offset is just above the highest message handled.
* `committedSafe_iff`: commits stay below every message whose `Handle` failed exactly when no
  later message of the stream is handled.
-/

namespace Conduit

open Transition

/-- A Kafka message: its offset in the partition, and the job its value decodes to, if it
does. -/
structure Message where
  offset : ℤ
  value : Option Job

/-- A message on its way through `Handle`, with the answer of `pool.Submit` for its job. -/
structure Delivery where
  message : Message
  accepted : Bool

/-- The error of `Handle`. -/
inductive HandleError
  /-- "worker pool full" -/
  | workerPoolFull
  deriving DecidableEq

/-- `kafkaJobHandler.Handle`: a message that does not decode is logged and skipped. -/
def handle (d : Delivery) : Except HandleError Unit :=
  match d.message.value with
  | none => .ok ()
  | some _ => if d.accepted then .ok () else .error .workerPoolFull

/-- `Handle` returned nil. -/
def Delivery.handled (d : Delivery) : Bool := (handle d).isOk

/-- The session of a consumer on one partition: the marked and the committed offset, and the
offsets of the messages whose `Handle` failed. -/
structure Session where
  marked : ℤ
  committed : ℤ
  failed : List ℤ

/-- A session that starts at an offset. -/
def Session.start (base : ℤ) : Session := ⟨base, base, []⟩

/-- `MarkMessage`. -/
def Session.markMessage (s : Session) (msg : Message) : Session :=
  { s with marked := max s.marked (msg.offset + 1) }

/-- What happens in a session. -/
inductive ConsumerEvent
  /-- One iteration of `ConsumeClaim`. -/
  | message (d : Delivery)
  /-- The marked offset is committed. -/
  | commit

/-- One event of a session. -/
def consumerStep (s : Session) : ConsumerEvent → Option Session
  | .message d =>
    match handle d with
    | .ok () => some (s.markMessage d.message)
    | .error _ => some { s with failed := d.message.offset :: s.failed }
  | .commit => some { s with committed := s.marked }

/-- The message of an event. -/
def ConsumerEvent.delivery? : ConsumerEvent → Option Delivery
  | .message d => some d
  | .commit => none

/-- The messages of a partition in the order of their offsets, from the offset the session
starts at. -/
structure PartitionStream where
  base : ℤ
  deliveries : List Delivery
  inOrder : deliveries.Pairwise fun d e => d.message.offset < e.message.offset
  fromBase : ∀ d ∈ deliveries, base ≤ d.message.offset

/-- The committed offset has passed no message whose `Handle` failed. -/
def Session.CommittedSafe (s : Session) : Prop := ∀ offset ∈ s.failed, s.committed ≤ offset

/-! ### The offsets of a session -/

/-- The messages of a list of events. -/
def delivered (es : List ConsumerEvent) : List Delivery := es.filterMap ConsumerEvent.delivery?

@[simp] theorem delivered_message (es : List ConsumerEvent) (d : Delivery) :
    delivered (es ++ [.message d]) = delivered es ++ [d] := by
  simp [delivered, ConsumerEvent.delivery?]

@[simp] theorem delivered_commit (es : List ConsumerEvent) :
    delivered (es ++ [.commit]) = delivered es := by
  simp [delivered, ConsumerEvent.delivery?]

/-- One iteration, by whether the message was handled. -/
theorem consumerStep_message (s : Session) (d : Delivery) :
    consumerStep s (.message d) =
      some (if d.handled then s.markMessage d.message
        else { s with failed := d.message.offset :: s.failed }) := by
  cases h : handle d <;> simp [consumerStep, Delivery.handled, h, Except.isOk, Except.toBool]

/-- The state of a session against the messages delivered so far. -/
structure SessionOk (base : ℤ) (ds : List Delivery) (s : Session) : Prop where
  /-- An offset from the start on that lies above every handled message bounds the mark. -/
  marked_le : ∀ bound, base ≤ bound →
    (∀ d ∈ ds, d.handled = true → d.message.offset < bound) → s.marked ≤ bound
  /-- Every handled message lies below the mark. -/
  lt_marked : ∀ d ∈ ds, d.handled = true → d.message.offset < s.marked
  /-- Commits do not run ahead of the mark. -/
  committed_le : s.committed ≤ s.marked
  /-- The failed messages. -/
  failed_iff : ∀ offset, offset ∈ s.failed ↔
    ∃ d ∈ ds, d.handled = false ∧ d.message.offset = offset

/-- A handled message raises the mark. -/
theorem SessionOk.mark {base : ℤ} {ds : List Delivery} {s : Session} (h : SessionOk base ds s)
    {d : Delivery} (hd : d.handled = true) :
    SessionOk base (ds ++ [d]) (s.markMessage d.message) where
  marked_le := by
    intro bound hbase hall
    have hold := h.marked_le bound hbase fun e he => hall e (List.mem_append_left _ he)
    have hnew := hall d (List.mem_append_right _ (List.mem_singleton.mpr rfl)) hd
    exact max_le hold hnew
  lt_marked := by
    intro e he hhandled
    rcases List.mem_append.mp he with he | he
    · exact lt_of_lt_of_le (h.lt_marked e he hhandled) (le_max_left _ _)
    · rw [List.mem_singleton] at he
      subst he
      exact lt_of_lt_of_le (Int.lt_succ _) (le_max_right _ _)
  committed_le := le_trans h.committed_le (le_max_left _ _)
  failed_iff := by
    intro offset
    change offset ∈ s.failed ↔ _
    rw [h.failed_iff offset]
    constructor
    · rintro ⟨e, he, hrest⟩
      exact ⟨e, List.mem_append_left _ he, hrest⟩
    · rintro ⟨e, he, hfail, hoffset⟩
      rcases List.mem_append.mp he with he | he
      · exact ⟨e, he, hfail, hoffset⟩
      · rw [List.mem_singleton] at he
        rw [he, hd] at hfail
        cases hfail

/-- A message whose `Handle` failed leaves the offsets alone. -/
theorem SessionOk.fail {base : ℤ} {ds : List Delivery} {s : Session} (h : SessionOk base ds s)
    {d : Delivery} (hd : d.handled = false) :
    SessionOk base (ds ++ [d]) { s with failed := d.message.offset :: s.failed } where
  marked_le bound hbase hall :=
    h.marked_le bound hbase fun e he => hall e (List.mem_append_left _ he)
  lt_marked := by
    intro e he hhandled
    rcases List.mem_append.mp he with he | he
    · exact h.lt_marked e he hhandled
    · rw [List.mem_singleton] at he
      rw [he, hd] at hhandled
      cases hhandled
  committed_le := h.committed_le
  failed_iff := by
    intro offset
    rw [List.mem_cons, h.failed_iff offset]
    constructor
    · rintro (rfl | ⟨e, he, hrest⟩)
      · exact ⟨d, List.mem_append_right _ (List.mem_singleton.mpr rfl), hd, rfl⟩
      · exact ⟨e, List.mem_append_left _ he, hrest⟩
    · rintro ⟨e, he, hfail, hoffset⟩
      rcases List.mem_append.mp he with he | he
      · exact .inr ⟨e, he, hfail, hoffset⟩
      · rw [List.mem_singleton] at he
        rw [he] at hoffset
        exact .inl hoffset.symm

/-- **The offsets**, after every run of events. -/
theorem sessionOk_of_exec {base : ℤ} {es : List ConsumerEvent} {s : Session}
    (h : exec consumerStep (Session.start base) es = some s) :
    SessionOk base (delivered es) s := by
  refine exec_history (H := fun es s => SessionOk base (delivered es) s) ?_ ?_ h
  · exact ⟨fun bound hbase _ => hbase, by simp [delivered], le_refl _,
      by simp [Session.start, delivered]⟩
  · intro es u e v _ ih hstep
    cases e with
    | message d =>
        rw [consumerStep_message] at hstep
        obtain rfl := Option.some.inj hstep
        rw [delivered_message]
        cases hd : d.handled with
        | true => exact ih.mark hd
        | false => exact ih.fail hd
    | commit =>
        obtain rfl := Option.some.inj hstep
        rw [delivered_commit]
        exact ⟨ih.marked_le, ih.lt_marked, le_refl _, ih.failed_iff⟩

/-- A session takes every event. -/
theorem exists_exec (s : Session) (es : List ConsumerEvent) :
    ∃ s', exec consumerStep s es = some s' := by
  induction es generalizing s with
  | nil => exact ⟨s, rfl⟩
  | cons e es ih =>
      obtain ⟨u, hu⟩ : ∃ u, consumerStep s e = some u := by
        cases e with
        | message d => exact ⟨_, consumerStep_message s d⟩
        | commit => exact ⟨_, rfl⟩
      obtain ⟨s', hs'⟩ := ih u
      exact ⟨s', exec_cons_iff.mpr ⟨u, hu, hs'⟩⟩

/-! ### Commits -/

/-- When no message is handled after one that failed, every handled message lies below every
failed one. -/
theorem handled_lt_failed {ds : List Delivery}
    (horder : ds.Pairwise fun d e => d.message.offset < e.message.offset)
    (hpattern : ds.Pairwise fun d e => d.handled = false → e.handled = false)
    {d e : Delivery} (hd : d ∈ ds) (he : e ∈ ds) (hfail : d.handled = false)
    (hhandled : e.handled = true) : e.message.offset < d.message.offset := by
  refine List.Pairwise.forall_of_forall_of_flip
    (R := fun d e => d.handled = false → e.handled = true →
      e.message.offset < d.message.offset) ?_ ?_ ?_ hd he hfail hhandled
  · intro x _ hfail hhandled
    rw [hfail] at hhandled
    cases hhandled
  · refine hpattern.imp ?_
    intro x y hxy hfail hhandled
    rw [hxy hfail] at hhandled
    cases hhandled
  · exact horder.imp fun hlt _ _ => hlt

/-- **Unhandled messages.** Whatever the moments at which offsets are committed, the committed
offset stays at or below every message whose `Handle` failed exactly when no message of the
stream is handled after one that failed. -/
theorem committedSafe_iff (stream : PartitionStream) :
    (∀ es, delivered es = stream.deliveries →
        AllStates consumerStep Session.CommittedSafe (Session.start stream.base) es) ↔
      stream.deliveries.Pairwise fun d e => d.handled = false → e.handled = false := by
  constructor
  · intro hsafe
    -- Commit once, at the end.
    let es := stream.deliveries.map ConsumerEvent.message
    have hes : delivered es = stream.deliveries := by
      simp [es, delivered, List.filterMap_map, Function.comp_def, ConsumerEvent.delivery?]
    obtain ⟨u, hu⟩ := exists_exec (Session.start stream.base) es
    have hok := sessionOk_of_exec hu
    rw [hes] at hok
    have hcommit := hsafe (es ++ [.commit]) (by rw [delivered_commit, hes])
      (es ++ [.commit]) [] { u with committed := u.marked } (by simp)
      (exec_concat_iff.mpr ⟨u, hu, rfl⟩)
    refine stream.inOrder.imp_of_mem ?_
    intro d e hd he hlt hfail
    by_contra hhandled
    have hmark := hok.lt_marked e he (by simpa using hhandled)
    have hle := hcommit d.message.offset ((hok.failed_iff _).mpr ⟨d, hd, hfail, rfl⟩)
    exact absurd hlt (not_lt.mpr (le_of_lt (lt_of_lt_of_le hmark hle)))
  · rintro hpattern es hes pre post s rfl hpre
    have hok := sessionOk_of_exec hpre
    have hmem : ∀ d ∈ delivered pre, d ∈ stream.deliveries := by
      intro d hd
      rw [← hes, delivered, List.filterMap_append]
      exact List.mem_append_left _ hd
    intro offset hoffset
    obtain ⟨d, hd, hfail, rfl⟩ := (hok.failed_iff offset).mp hoffset
    refine le_trans hok.committed_le (hok.marked_le _ (stream.fromBase d (hmem d hd)) ?_)
    intro e he hhandled
    exact handled_lt_failed stream.inOrder hpattern (hmem d hd) (hmem e he) hfail hhandled

/-- A decodable message at an offset. -/
def sampleMessage (offset : ℤ) : Message where
  offset := offset
  value := some (requestJob
    ⟨"", ⟨"t1", "webhook", none, 0, 3, 0, "", "default", none⟩, none, none⟩)

/-- The pool is full at the first message and has room again at the second; then the offset is
committed. -/
def fullThenFree : List ConsumerEvent :=
  [.message ⟨sampleMessage 0, false⟩, .message ⟨sampleMessage 1, true⟩, .commit]

/-- The commit covers both messages, and `Handle` has failed for the first. -/
theorem committed_fullThenFree :
    ∃ s, exec consumerStep (Session.start 0) fullThenFree = some s ∧ s.failed = [0] ∧
      s.committed = 2 ∧ ¬ s.CommittedSafe := by
  refine ⟨⟨2, 2, [0]⟩, rfl, rfl, rfl, ?_⟩
  intro hsafe
  have hle := hsafe 0 (List.mem_singleton.mpr rfl)
  exact absurd hle (by decide)

/-- The two messages, as the stream of their partition. -/
def fullThenFreeStream : PartitionStream where
  base := 0
  deliveries := delivered fullThenFree
  inOrder := by decide
  fromBase := by decide

/-- The stream is not safe: its second message is handled after the first one has failed. -/
theorem committedSafe_iff_fullThenFree :
    (fullThenFreeStream.deliveries.map Delivery.handled = [false, true]) ∧
      ¬ ∀ es, delivered es = fullThenFreeStream.deliveries →
        AllStates consumerStep Session.CommittedSafe (Session.start 0) es := by
  refine ⟨rfl, fun hsafe => ?_⟩
  have hpattern := (committedSafe_iff fullThenFreeStream).mp hsafe
  exact absurd hpattern (by decide)

end Conduit
