import LinuxAssignment.Channel
import LinuxAssignment.MessageQueue

namespace LinuxAssignment.MessageQueue

open ByteMemory Channel StepSystem

/-- The call of `msgsnd` that a sender makes next, if there is one. -/
inductive SendPlace where
  | first
  | second
  | returned
  deriving DecidableEq

def SendPlace.text : SendPlace → Option Text
  | .first => some firstText
  | .second => some secondText
  | .returned => none

def SendPlace.next : SendPlace → SendPlace
  | .first => .second
  | .second | .returned => .returned

structure Sender where
  place : SendPlace
  field : Memory

structure Receiver where
  stack : Memory
  stored : Nat
  returned : Bool

/-- The queue, and the processes that run the two programs on it. -/
structure Traffic (σ ρ : Type) where
  queue : List Message
  sender : σ → Sender
  receiver : ρ → Receiver

inductive Process (σ ρ : Type) where
  | sender (i : σ)
  | receiver (j : ρ)
  deriving DecidableEq

def queuedBytes (queue : List Message) : Nat := (queue.map fun msg => msg.text.length).sum

/-- The queue takes a message if its bytes and its messages stay within `msg_qbytes`. -/
def Room (qbytes : Nat) (queue : List Message) (msg : Message) : Prop :=
  queuedBytes queue + msg.text.length ≤ qbytes ∧ queue.length + 1 ≤ qbytes

instance (qbytes : Nat) (queue : List Message) (msg : Message) : Decidable (Room qbytes queue msg) :=
  inferInstanceAs (Decidable (_ ∧ _))

/-- `msgsnd` with `IPC_NOWAIT`, whose failure the sender ignores. -/
def msgsnd (qbytes : Nat) (queue : List Message) (msg : Message) : List Message :=
  if Room qbytes queue msg then queue ++ [msg] else queue

section

variable {σ ρ : Type}

def Traffic.start (queue : List Message) (field : σ → Memory) (stack : ρ → Memory) : Traffic σ ρ :=
  ⟨queue, fun i => ⟨.first, field i⟩, fun j => ⟨stack j, 0, false⟩⟩

variable [DecidableEq σ] [DecidableEq ρ] (qbytes : Nat)

def Traffic.step (s : Traffic σ ρ) : Process σ ρ → Option (Traffic σ ρ)
  | .sender i => (s.sender i).place.text.map fun t =>
    let r := send (s.sender i).field t
    { s with
      queue := msgsnd qbytes s.queue r.2
      sender := Function.update s.sender i ⟨(s.sender i).place.next, r.1⟩ }
  | .receiver j =>
    if (s.receiver j).returned then none
    else
      let r := msgRecv s.queue (s.receiver j).stack
      some { s with
        queue := r.queue
        receiver := Function.update s.receiver j ⟨r.stack, r.stored, true⟩ }

/-- The message that a step puts on the queue. -/
def accepted (e : Event (Traffic σ ρ) (Process σ ρ)) : Option Message :=
  match e.label with
  | .sender i => (e.before.sender i).place.text.bind fun t =>
    if Room qbytes e.before.queue t.message then some t.message else none
  | .receiver _ => none

/-- The message that a step takes from the queue. -/
def taken (e : Event (Traffic σ ρ) (Process σ ρ)) : Option Message :=
  match e.label with
  | .sender _ => none
  | .receiver _ => e.before.queue.head?

def acceptedFrom (i : σ) (e : Event (Traffic σ ρ) (Process σ ρ)) : Option Message :=
  if e.label = .sender i then accepted qbytes e else none

def takenBy (j : ρ) (e : Event (Traffic σ ρ) (Process σ ρ)) : Option Message :=
  if e.label = .receiver j then taken e else none

def view : View (Traffic σ ρ) (Process σ ρ) Message := ⟨Traffic.queue, accepted qbytes, taken⟩

/-- What a sender can have put on the queue by now. -/
def SendPlace.behind : SendPlace → List Message
  | .first => []
  | .second => [firstText.message]
  | .returned => [firstText.message, secondText.message]

/-- What a receiver holds of the messages it has taken. -/
inductive Served (stack : Memory) : List Message → Receiver → Prop
  | waiting : Served stack [] ⟨stack, 0, false⟩
  | nothing : Served stack [] ⟨stack, 0, true⟩
  | message (msg : Message) : Served stack [msg] ⟨blit stack 0 (msg.text.take receiveSize),
      (msg.text.take receiveSize).length, true⟩

/-- The senders and the receivers, by the steps of the run so far. -/
structure Traced (stack : ρ → Memory) (past : List (Event (Traffic σ ρ) (Process σ ρ)))
    (s : Traffic σ ρ) : Prop where
  sender : ∀ i, (past.filterMap (acceptedFrom qbytes i)).Sublist (s.sender i).place.behind
  receiver : ∀ j, Served (stack j) (past.filterMap (takenBy j)) (s.receiver j)
  bytes : queuedBytes s.queue ≤ qbytes

variable {qbytes} {s s' : Traffic σ ρ} {a : Process σ ρ} {stack : ρ → Memory}
  {past : List (Event (Traffic σ ρ) (Process σ ρ))}

inductive Fires (qbytes : Nat) (s : Traffic σ ρ) : Process σ ρ → Traffic σ ρ → Prop
  | sender (i : σ) (t : Text) : (s.sender i).place.text = some t →
      Fires qbytes s (.sender i) ⟨msgsnd qbytes s.queue t.message,
        Function.update s.sender i ⟨(s.sender i).place.next, (send (s.sender i).field t).1⟩, s.receiver⟩
  | nothing (j : ρ) : (s.receiver j).returned = false → s.queue = [] →
      Fires qbytes s (.receiver j) ⟨[], s.sender,
        Function.update s.receiver j ⟨(s.receiver j).stack, 0, true⟩⟩
  | message (j : ρ) (msg : Message) (queue : List Message) : (s.receiver j).returned = false →
      s.queue = msg :: queue →
      Fires qbytes s (.receiver j) ⟨queue, s.sender, Function.update s.receiver j
        ⟨blit (s.receiver j).stack 0 (msg.text.take receiveSize),
          (msg.text.take receiveSize).length, true⟩⟩

theorem fires_of_step (h : s.step qbytes a = some s') : Fires qbytes s a s' := by
  cases a with
  | sender i =>
    obtain ⟨t, ht, hs⟩ := Option.map_eq_some_iff.mp h
    subst hs
    dsimp only
    rw [send_message]
    exact .sender i t ht
  | receiver j =>
    simp only [Traffic.step] at h
    split at h
    next => cases h
    next hj =>
      cases h
      have hwaits := Bool.eq_false_iff.mpr hj
      cases hq : s.queue with
      | nil => exact .nothing j hwaits hq
      | cons msg queue => exact .message j msg queue hwaits hq

theorem step_conveys (s : Traffic σ ρ) (a : Process σ ρ) (t : Traffic σ ρ)
    (h : s.step qbytes a = some t) : (view qbytes).Conveys ⟨s, a, t⟩ := by
  cases fires_of_step h with
  | sender i t ht =>
    simp only [View.Conveys, view, accepted, taken, ht, Option.bind_some, msgsnd]
    split <;> simp
  | nothing j hj hq => simp [View.Conveys, view, accepted, taken, hq]
  | message j msg queue hj hq => simp [View.Conveys, view, accepted, taken, hq]

theorem queuedBytes_msgsnd {queue : List Message} (h : queuedBytes queue ≤ qbytes) (msg : Message) :
    queuedBytes (msgsnd qbytes queue msg) ≤ qbytes := by
  unfold msgsnd
  split
  next hroom =>
    have hsum : queuedBytes (queue ++ [msg]) = queuedBytes queue + msg.text.length := by
      simp [queuedBytes]
    exact hsum ▸ hroom.1
  next => exact h

theorem behind_next {p : SendPlace} {t : Text} (h : p.text = some t) :
    p.next.behind = p.behind ++ [t.message] := by
  cases p <;> cases h <;> rfl

theorem Served.before {m : Memory} {msgs : List Message} {r : Receiver} (h : Served m msgs r)
    (hr : r.returned = false) : msgs = [] ∧ r.stack = m := by
  cases h with
  | waiting => exact ⟨rfl, rfl⟩
  | nothing => cases hr
  | message => cases hr

theorem acceptedFrom_receiver (i : σ) (j : ρ) (s s' : Traffic σ ρ) :
    acceptedFrom qbytes i ⟨s, .receiver j, s'⟩ = none := by simp [acceptedFrom]

theorem acceptedFrom_other {i k : σ} (h : k ≠ i) (s s' : Traffic σ ρ) :
    acceptedFrom qbytes k ⟨s, .sender i, s'⟩ = none :=
  if_neg fun he => h (Process.sender.inj he).symm

theorem takenBy_sender (j : ρ) (i : σ) (s s' : Traffic σ ρ) :
    takenBy j ⟨s, .sender i, s'⟩ = none := by simp [takenBy]

theorem takenBy_other {j k : ρ} (h : k ≠ j) (s s' : Traffic σ ρ) :
    takenBy k ⟨s, .receiver j, s'⟩ = none :=
  if_neg fun he => h (Process.receiver.inj he).symm

theorem takenBy_self (j : ρ) (s s' : Traffic σ ρ) :
    takenBy j ⟨s, .receiver j, s'⟩ = s.queue.head? := if_pos rfl

variable (qbytes) in
theorem acceptedFrom_self (s' : Traffic σ ρ) {i : σ} {t : Text}
    (ht : (s.sender i).place.text = some t) :
    acceptedFrom qbytes i ⟨s, .sender i, s'⟩ = none ∨
      acceptedFrom qbytes i ⟨s, .sender i, s'⟩ = some t.message := by
  simp only [acceptedFrom, accepted, ht, if_true, Option.bind_some]
  split
  next => exact Or.inr rfl
  next => exact Or.inl rfl

theorem Traced.send (hs : Traced qbytes stack past s) {i : σ} {t : Text}
    (ht : (s.sender i).place.text = some t) :
    Traced qbytes stack (past ++ [⟨s, .sender i, s'⟩]) ⟨msgsnd qbytes s.queue t.message,
      Function.update s.sender i ⟨(s.sender i).place.next, (send (s.sender i).field t).1⟩,
      s.receiver⟩ := by
  refine ⟨fun k => ?_, fun j => ?_, queuedBytes_msgsnd hs.bytes _⟩
  · rw [List.filterMap_append]
    dsimp only
    by_cases hk : k = i
    · subst hk
      rw [Function.update_self, behind_next ht]
      refine (hs.sender k).append ?_
      rcases acceptedFrom_self qbytes s' ht with hnone | hsome
      · rw [List.filterMap_cons_none hnone]
        exact List.nil_sublist _
      · rw [List.filterMap_cons_some hsome]
        exact List.Sublist.refl _
    · rw [Function.update_of_ne hk, List.filterMap_cons_none (acceptedFrom_other hk s s'),
        List.filterMap_nil, List.append_nil]
      exact hs.sender k
  · rw [List.filterMap_append, List.filterMap_cons_none (takenBy_sender j i s s'), List.filterMap_nil,
      List.append_nil]
    exact hs.receiver j

/-- A receiver returns with what was in front of the queue. -/
theorem Traced.receive (hs : Traced qbytes stack past s) {j : ρ} {queue : List Message}
    {r : Receiver} (hwaits : (s.receiver j).returned = false)
    (hbytes : queuedBytes queue ≤ queuedBytes s.queue)
    (hserved : Served (s.receiver j).stack s.queue.head?.toList r) :
    Traced qbytes stack (past ++ [⟨s, .receiver j, s'⟩])
      ⟨queue, s.sender, Function.update s.receiver j r⟩ := by
  refine ⟨fun i => ?_, fun k => ?_, Nat.le_trans hbytes hs.bytes⟩
  · rw [List.filterMap_append, List.filterMap_cons_none (acceptedFrom_receiver i j s s'),
      List.filterMap_nil, List.append_nil]
    exact hs.sender i
  · rw [List.filterMap_append]
    dsimp only
    by_cases hk : k = j
    · subst hk
      obtain ⟨hnone, hstack⟩ := (hs.receiver k).before hwaits
      rw [hnone, Function.update_self, List.nil_append, ← hstack]
      have htaken : [(⟨s, .receiver k, s'⟩ : Event (Traffic σ ρ) (Process σ ρ))].filterMap
          (takenBy k) = s.queue.head?.toList := by
        cases hq : s.queue.head? with
        | none => rw [List.filterMap_cons_none ((takenBy_self k s s').trans hq)]; rfl
        | some msg => rw [List.filterMap_cons_some ((takenBy_self k s s').trans hq)]; rfl
      rwa [htaken]
    · rw [Function.update_of_ne hk, List.filterMap_cons_none (takenBy_other hk s s'),
        List.filterMap_nil, List.append_nil]
      exact hs.receiver k

theorem Traced.step (hs : Traced qbytes stack past s) (h : s.step qbytes a = some s') :
    Traced qbytes stack (past ++ [⟨s, a, s'⟩]) s' := by
  cases fires_of_step h with
  | sender i t ht => exact hs.send ht
  | nothing j hj hq =>
    refine hs.receive hj (Nat.zero_le _) ?_
    rw [hq]
    exact .nothing
  | message j msg queue hj hq =>
    refine hs.receive hj ?_ ?_
    · rw [hq]
      exact Nat.le_add_left _ _
    · rw [hq]
      exact .message msg

end

/-- Any number of senders and receivers on one queue: what was on it and what they put there has been
taken in that order or is still there, a sender's messages in its own order, and each receiver
holds the beginning of the one message it has taken, if it found any. -/
theorem messages_in_order {σ ρ : Type} [DecidableEq σ] [DecidableEq ρ] {qbytes : Nat}
    {queue : List Message} (hqueue : queuedBytes queue ≤ qbytes) (field : σ → Memory)
    (stack : ρ → Memory) {es : List (Event (Traffic σ ρ) (Process σ ρ))} {s : Traffic σ ρ}
    (h : Trace (Traffic.step qbytes) (.start queue field stack) es s) :
    queue ++ es.filterMap (accepted qbytes) = es.filterMap taken ++ s.queue ∧
      queuedBytes s.queue ≤ qbytes ∧
      (∀ i, (es.filterMap (acceptedFrom qbytes i)).Sublist
        [firstText.message, secondText.message]) ∧
      ∀ j, Served (stack j) (es.filterMap (takenBy j)) (s.receiver j) := by
  have hstart : Traced qbytes stack [] (Traffic.start queue field stack) :=
    ⟨fun _ => List.nil_sublist _, fun _ => .waiting, hqueue⟩
  have keep : ∀ (past : List (Event (Traffic σ ρ) (Process σ ρ))) (s : Traffic σ ρ)
      (a : Process σ ρ) (t : Traffic σ ρ), Traced qbytes stack past s → True →
      s.step qbytes a = some t → Traced qbytes stack (past ++ [⟨s, a, t⟩]) t :=
    fun _ _ _ _ hs _ ht => hs.step ht
  obtain ⟨hend, -⟩ := h.history keep hstart fun _ _ => trivial
  refine ⟨View.conveyed (v := view qbytes) h step_conveys, hend.bytes, fun i => ?_, hend.receiver⟩
  refine (hend.sender i).trans ?_
  cases (s.sender i).place with
  | first => exact List.nil_sublist _
  | second => exact List.Sublist.cons_cons _ (List.nil_sublist _)
  | returned => exact List.Sublist.refl _

/-- Two senders and a receiver, on a queue with the usual limit. -/
def twoSenders : Traffic Bool Unit := .start [] (fun _ _ => 0) fun _ _ => 0

def twoSendersRun : List (Process Bool Unit) :=
  [.sender false, .sender true, .receiver (), .sender false, .sender true]

theorem twoSenders_in_order :
    (record (Traffic.step 16384) twoSenders twoSendersRun).length = twoSendersRun.length ∧
    [] ++ (record (Traffic.step 16384) twoSenders twoSendersRun).filterMap (accepted 16384) =
      (record (Traffic.step 16384) twoSenders twoSendersRun).filterMap taken ++
        (last (Traffic.step 16384) twoSenders twoSendersRun).queue :=
  ⟨rfl, (messages_in_order (by decide) _ _ (Trace.recorded _ _ _)).1⟩

end LinuxAssignment.MessageQueue
