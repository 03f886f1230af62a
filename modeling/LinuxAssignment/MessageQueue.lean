import LinuxAssignment.Stdio

namespace LinuxAssignment.MessageQueue

open ByteMemory Stdio

/-- `sizeof(msg.text)` of the sender. -/
abbrev sendSize : Nat := 100

/-- `sizeof(msg.text)` of the receiver. -/
abbrev receiveSize : Nat := 20

structure Message where
  type : Int
  text : List UInt8
  deriving DecidableEq

/-- A text that the sender's field can hold with its NUL. -/
structure Text where
  bytes : List UInt8
  fits : bytes.length < sendSize
  noNul : 0 ∉ bytes

/-- The message in the sender's format. -/
def Text.message (t : Text) : Message := ⟨1, t.bytes ++ [0]⟩

/-- `strcpy` into the sender's field at `field`, and the message `msgsnd` makes of it. -/
def send (field : Memory) (t : Text) : Memory × Message :=
  let field' := blit field 0 (t.bytes ++ [0])
  (field', ⟨1, slice field' 0 (strlen field' 0 sendSize + 1)⟩)

/-- The field and the queue when the texts have been sent one after the other. -/
def sendAll : Memory × List Message → List Text → Memory × List Message
  | s, [] => s
  | s, t :: texts =>
    let r := send s.1 t
    sendAll (r.1, s.2 ++ [r.2]) texts

def ascii (s : String) : List UInt8 := s.toList.map fun c => UInt8.ofNat c.toNat

def firstText : Text := ⟨ascii "This is a first message", by decide, by decide⟩

def secondText : Text := ⟨ascii "This is a second message", by decide, by decide⟩

/-- What `main` of the sender makes of the queue. -/
def msgSend (field : Memory) (queue : List Message) : List Message :=
  (sendAll (field, queue) [firstText, secondText]).2

/-- `msgrcv` of the first message, cut to `size` bytes of text. -/
def msgrcv (size : Nat) : List Message → Option (Message × List Message)
  | [] => none
  | msg :: queue => some (⟨msg.type, msg.text.take size⟩, queue)

/-- The receiver's stack from its field on, how many bytes were stored there, and the queue. -/
structure Received where
  stack : Memory
  stored : Nat
  queue : List Message

/-- `main` of the receiver up to its `printf`. -/
def msgRecv (queue : List Message) (stack : Memory) : Received :=
  match msgrcv receiveSize queue with
  | none => ⟨stack, 0, queue⟩
  | some (msg, queue') => ⟨blit stack 0 msg.text, msg.text.length, queue'⟩

def Received.Initialised (r : Received) (i : Nat) : Prop := i < r.stored

/-- What `%s` prints lies with its NUL in the field and is initialised, and is the first of the
texts when there is one. -/
def PrintsFirst (texts : List Text) (r : Received) : Prop :=
  ∃ printed, StringAt r.stack 0 printed ∧
    (∀ i ≤ printed.length, i < receiveSize ∧ r.Initialised i) ∧
    ∀ t ∈ texts.head?, printed = t.bytes

section

variable {stack : Memory} {t : Text} {texts : List Text}

theorem send_message (field : Memory) (t : Text) : (send field t).2 = t.message := by
  have hslice : slice (blit field 0 (t.bytes ++ [0])) 0 (t.bytes.length + 1) = t.bytes ++ [0] := by
    have hself := slice_blit_self field 0 (t.bytes ++ [0])
    rwa [List.length_append, List.length_singleton] at hself
  have hlen : strlen (blit field 0 (t.bytes ++ [0])) 0 sendSize = t.bytes.length :=
    strlen_eq hslice t.fits t.noNul
  simp only [send, hlen, hslice, Text.message]

theorem sendAll_queue (field : Memory) (queue : List Message) (texts : List Text) :
    (sendAll (field, queue) texts).2 = queue ++ texts.map Text.message := by
  induction texts generalizing field queue with
  | nil => simp [sendAll]
  | cons t texts ih =>
    simp only [sendAll, ih, send_message, List.append_assoc, List.map_cons, List.cons_append,
      List.nil_append]

theorem msgRecv_nil : msgRecv [] stack = ⟨stack, 0, []⟩ := rfl

theorem msgRecv_cons (msg : Message) (queue : List Message) :
    msgRecv (msg :: queue) stack = ⟨blit stack 0 (msg.text.take receiveSize),
      (msg.text.take receiveSize).length, queue⟩ := rfl

theorem short_stringAt (h : t.bytes.length < receiveSize) :
    StringAt (blit stack 0 (t.message.text.take receiveSize)) 0 t.bytes := by
  have htake : t.message.text.take receiveSize = t.bytes ++ [0] := by
    refine List.take_of_length_le ?_
    simp only [Text.message, List.length_append, List.length_singleton]
    exact h
  refine ⟨?_, t.noNul⟩
  have hself := slice_blit_self stack 0 (t.bytes ++ [0])
  rw [List.length_append, List.length_singleton] at hself
  rw [htake, hself]

/-- A text that is cut leaves no NUL in the field. -/
theorem long_not_stringAt (h : receiveSize ≤ t.bytes.length) {printed : List UInt8}
    (hlen : printed.length < receiveSize) :
    ¬ StringAt (blit stack 0 (t.message.text.take receiveSize)) 0 printed := by
  rintro ⟨hslice, -⟩
  have htake : t.message.text.take receiveSize = t.bytes.take receiveSize :=
    List.take_append_of_le_length h
  have hlong : printed.length < (t.bytes.take receiveSize).length := by
    rw [List.length_take]
    omega
  have hnul : blit stack 0 (t.bytes.take receiveSize) (0 + printed.length) = 0 := by
    rw [htake] at hslice
    have hlast := (slice_append printed [0] hslice).2
    simpa [slice] using hlast
  rw [blit_inside hlong] at hnul
  exact t.noNul (List.mem_of_mem_take (hnul ▸ List.getElem_mem hlong))

end

/-- The receiver prints the first text of the queue, and only that, exactly when there is one and
it fits with its NUL into the field. -/
theorem prints_first_iff (texts : List Text) (stack : Memory) :
    PrintsFirst texts (msgRecv (texts.map Text.message) stack) ↔
      ∃ t ∈ texts.head?, t.bytes.length < receiveSize := by
  cases texts with
  | nil =>
    rw [List.map_nil, msgRecv_nil]
    refine iff_of_false ?_ (by simp)
    rintro ⟨printed, -, hinit, -⟩
    exact Nat.not_lt_zero 0 (hinit 0 (Nat.zero_le _)).2
  | cons t texts =>
    rw [List.map_cons, msgRecv_cons]
    constructor
    · rintro ⟨printed, hstring, hinit, -⟩
      refine ⟨t, rfl, ?_⟩
      by_contra hlong
      exact long_not_stringAt (Nat.not_lt.mp hlong) (hinit _ (Nat.le_refl _)).1 hstring
    · rintro ⟨t', ht, hlen⟩
      cases ht
      refine ⟨t.bytes, short_stringAt hlen, fun i hi => ⟨Nat.lt_of_le_of_lt hi hlen, ?_⟩, ?_⟩
      · simp only [Received.Initialised, Text.message, List.length_take, List.length_append,
          List.length_singleton]
        omega
      · rintro t' ⟨⟩
        rfl

/-- Of the sender's own first message the receiver's field has 20 characters and no NUL. -/
theorem own_message_not_printed :
    ¬ PrintsFirst [firstText, secondText] (msgRecv (msgSend (fun _ => 0) []) fun _ => 0) := by
  have hqueue : msgSend (fun _ => 0) [] = [firstText, secondText].map Text.message :=
    sendAll_queue _ [] _
  rw [hqueue, List.map_cons, msgRecv_cons]
  rintro ⟨printed, hstring, hinit, -⟩
  exact long_not_stringAt (by decide) (hinit _ (Nat.le_refl _)).1 hstring

end LinuxAssignment.MessageQueue
