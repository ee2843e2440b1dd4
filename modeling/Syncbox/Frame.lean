/-
# `Syncbox.Frame` — messages with their length in front

`src/frame/mod.rs`.  A message is sent as its length, four bytes, and its JSON.  The reader
believes the length only as far as bytes have come: its buffer starts at 64 KiB, is filled, and
doubles, so a peer that announces much and sends little makes it allocate little.

A `Vec` is its bytes and its capacity, which no list of bytes exceeds.  `received` and `moments`
are the proof's: how much of the payload has come, and after every operation on the buffer how
much had come and how large the buffer was.
-/
import Syncbox.Lib.Encode
import Syncbox.Storage.Atomic

namespace Syncbox.Frame

open Rust Encode Storage Prog Check

/-! ## The program -/

def INITIAL_READ_BYTES : Nat := 64 * 1024

def USIZE_MAX : Nat := 2 ^ 64 - 1

/-- `usize::saturating_mul`. -/
def saturatingMul (a b : Nat) : Nat := min (a * b) USIZE_MAX

/-- `usize` subtraction, which must not go below zero. -/
def subtract (a b : Nat) : Except Error Nat :=
  if b ≤ a then .ok (a - b) else .error (.panic "attempt to subtract with overflow")

/-- `write_json`: what is handed to the writer. -/
def writeJson {α : Type} [Serde α] (value : α) (limit : Nat) : Except Error (List Byte) := do
  let payload := Serde.toWriter value
  rejectIf (payload.length > limit) (.bail "sync protocol message exceeds its maximum size")
  rejectIf (payload.length ≥ 2 ^ 32) (.bail "sync protocol message is too large")
  .ok (toBe 4 payload.length ++ payload)

/-- A `Vec<u8>`. -/
structure Buffer where
  bytes : List Byte
  capacity : Nat
  fits : bytes.length ≤ capacity

namespace Buffer

/-- `Vec::new`. -/
def new : Buffer := ⟨[], 0, le_rfl⟩

def clear (b : Buffer) : Buffer := ⟨[], b.capacity, Nat.zero_le _⟩

/-- `try_reserve_exact` on a machine with memory for it. -/
def reserveExact (b : Buffer) (additional : Nat) : Buffer :=
  ⟨b.bytes, max b.capacity (b.bytes.length + additional), b.fits.trans (le_max_left _ _)⟩

/-- `resize` with zeros.  A buffer that has to grow for it has room for the new bytes. -/
def resize (b : Buffer) (len : Nat) : Buffer where
  bytes := b.bytes.take len ++ List.replicate (len - b.bytes.length) 0
  capacity := max b.capacity len
  fits := by
    rw [List.length_append, List.length_take, List.length_replicate]
    omega

/-- The bytes from `start` on become others. -/
def overwrite (b : Buffer) (start : Nat) (bytes : List Byte) : Buffer where
  bytes := b.bytes.take start ++ bytes.take (b.bytes.length - start)
  capacity := b.capacity
  fits := by
    have := b.fits
    rw [List.length_append, List.length_take, List.length_take]
    omega

end Buffer

/-- What had come, and how large the buffer was. -/
structure Moment where
  received : Nat
  capacity : Nat

structure Reading where
  /-- What the peer sends from here on, to the end of the stream. -/
  stream : List Byte
  buffer : Buffer
  received : Nat
  moments : List Moment

/-- A reader, on a machine that has memory for buffers of some sizes. -/
abbrev Reader := Prog (Nat → Bool) Error Reading

/-- The buffer becomes another one. -/
def setBuffer (buffer : Buffer) : Reader Unit :=
  modify fun s => { s with buffer, moments := ⟨s.received, buffer.capacity⟩ :: s.moments }

/-- `try_reserve_exact`. -/
def tryReserveExact (additional : Nat) : Reader Unit := do
  let buffer := (← get).buffer
  let allocates ← read
  let needed := buffer.bytes.length + additional
  if needed ≤ buffer.capacity ∨ allocates needed = true then setBuffer (buffer.reserveExact additional)
  else throw (.bail "unable to allocate sync protocol frame")

/-- `read_exact` into a buffer of its own. -/
def readExact (context : String) (count : Nat) : Reader (List Byte) := fun _ s =>
  if count ≤ s.stream.length then .ok (s.stream.take count) { s with stream := s.stream.drop count }
  else .error (.io context .other) { s with stream := [] }

/-- `read_exact` into the part of the buffer from `start` on. -/
def readInto (start : Nat) : Reader Unit := do
  let buffer := (← get).buffer
  let bytes ← readExact "unable to read sync protocol frame" (buffer.bytes.length - start)
  modify fun s => { s with received := s.received + bytes.length }
  setBuffer (buffer.overwrite start bytes)

/-- A full buffer grows. -/
def grow (length : U32) : Reader Unit := do
  let buffer := (← get).buffer
  Prog.when (buffer.bytes.length = buffer.capacity) do
    let capacity := min (max (saturatingMul buffer.capacity 2) INITIAL_READ_BYTES) length.val
    let additional ← Prog.ofExcept (subtract capacity buffer.bytes.length)
    tryReserveExact additional

/-- The buffer is filled. -/
def refill (length : U32) : Reader Unit := do
  let buffer := (← get).buffer
  let start := buffer.bytes.length
  setBuffer (buffer.resize (min buffer.capacity length.val))
  readInto start

/-- The body of the loop. -/
def round (length : U32) : Reader Unit := do
  grow length
  refill length

/-! ## One round -/

section Round

variable {length : U32} {allocates : Nat → Bool} {s : Reading}

/-- The capacity of a full buffer that has grown. -/
def grown (capacity length : Nat) : Nat := min (max (2 * capacity) INITIAL_READ_BYTES) length

/-- Memory is missing for a buffer no larger than the message. -/
def Scarce (length : U32) (allocates : Nat → Bool) : Prop := ∃ n ≤ length.val, allocates n = false

theorem grow_spec (hmore : s.buffer.bytes.length < length.val) :
    (grow length).wp allocates s
      (fun _ s' => s'.buffer.bytes = s.buffer.bytes ∧ s'.stream = s.stream ∧ s'.received = s.received
        ∧ s.buffer.bytes.length < s'.buffer.capacity
        ∧ (s'.buffer.capacity = s.buffer.capacity ∧ s'.moments = s.moments
          ∨ s.buffer.bytes.length = s.buffer.capacity
            ∧ s'.buffer.capacity = grown s.buffer.capacity length.val
            ∧ s'.moments = ⟨s.received, s'.buffer.capacity⟩ :: s.moments))
      (fun e s' => s' = s ∧ e = .bail "unable to allocate sync protocol frame"
        ∧ Scarce length allocates) := by
  have hfits := s.buffer.fits
  have hlength := length.isLt
  refine wp_when (fun hfull => ?_) fun hroom => ?_
  · have hfull : s.buffer.bytes.length = s.buffer.capacity := hfull
    have hsat : min (max (saturatingMul s.buffer.capacity 2) INITIAL_READ_BYTES) length.val
        = grown s.buffer.capacity length.val := by
      unfold saturatingMul grown USIZE_MAX
      omega
    have hgrown : s.buffer.bytes.length < grown s.buffer.capacity length.val := by
      unfold grown INITIAL_READ_BYTES
      omega
    have hsub : subtract (grown s.buffer.capacity length.val) s.buffer.bytes.length
        = .ok (grown s.buffer.capacity length.val - s.buffer.bytes.length) := if_pos hgrown.le
    have hsum : s.buffer.bytes.length + (grown s.buffer.capacity length.val - s.buffer.bytes.length)
        = grown s.buffer.capacity length.val := by omega
    rw [wp_bind, hsat, hsub, wp_ofExcept_ok]
    refine wp_ite (fun _ => ?_) fun hnot => ?_
    · have hcapacity : (s.buffer.reserveExact
          (grown s.buffer.capacity length.val - s.buffer.bytes.length)).capacity
            = grown s.buffer.capacity length.val := by
        show max s.buffer.capacity (s.buffer.bytes.length + _) = _
        rw [hsum]
        omega
      refine ⟨rfl, rfl, rfl, ?_, .inr ⟨hfull, hcapacity, rfl⟩⟩
      exact hgrown.trans_eq hcapacity.symm
    · refine ⟨rfl, rfl, grown s.buffer.capacity length.val, min_le_right _ _, ?_⟩
      have := (not_or.mp hnot).2
      rw [Bool.not_eq_true] at this
      rw [← hsum]
      exact this
  · refine ⟨rfl, rfl, rfl, ?_, .inl ⟨rfl, rfl⟩⟩
    exact lt_of_le_of_ne hfits hroom

/-- What the bounds say of one moment. -/
def Bounded (length : U32) (m : Moment) : Prop :=
  m.capacity ≤ max INITIAL_READ_BYTES (2 * m.received) ∧ m.capacity ≤ length.val

/-- Now, and at every moment before. -/
structure Within (length : U32) (s : Reading) : Prop where
  received : s.received = s.buffer.bytes.length
  now : Bounded length ⟨s.received, s.buffer.capacity⟩
  past : ∀ m ∈ s.moments, Bounded length m

theorem Bounded.mono {received received' capacity : Nat} (h : Bounded length ⟨received, capacity⟩)
    (hle : received ≤ received') : Bounded length ⟨received', capacity⟩ := by
  refine ⟨h.1.trans (max_le_max le_rfl ?_), h.2⟩
  exact Nat.mul_le_mul_left 2 hle

theorem Bounded.cons {m : Moment} {moments : List Moment} (h : Bounded length m)
    (hpast : ∀ m ∈ moments, Bounded length m) : ∀ m' ∈ m :: moments, Bounded length m' := by
  intro m' hm
  rcases List.mem_cons.mp hm with rfl | hm
  · exact h
  · exact hpast m' hm

theorem wp_readExact {context : String} {count : Nat} {Q : List Byte → Reading → Prop}
    {E : Error → Reading → Prop}
    (hok : count ≤ s.stream.length → Q (s.stream.take count) { s with stream := s.stream.drop count })
    (herr : s.stream.length < count → E (.io context .other) { s with stream := [] }) :
    (readExact context count).wp allocates s Q E := by
  unfold Prog.wp readExact
  by_cases hle : count ≤ s.stream.length
  · rw [if_pos hle]
    exact hok hle
  · rw [if_neg hle]
    exact herr (Nat.not_le.mp hle)

theorem refill_spec (hroom : s.buffer.bytes.length < s.buffer.capacity)
    (hmore : s.buffer.bytes.length < length.val) :
    (refill length).wp allocates s
      (fun _ s' => s.buffer.bytes.length < s'.buffer.bytes.length
        ∧ s'.buffer.bytes.length ≤ length.val
        ∧ s'.buffer.bytes ++ s'.stream = s.buffer.bytes ++ s.stream
        ∧ (Within length s → Within length s'))
      (fun e s' => (e = .io "unable to read sync protocol frame" .other
          ∧ s.buffer.bytes.length + s.stream.length < length.val)
        ∧ (Within length s → ∀ m ∈ s'.moments, Bounded length m)) := by
  obtain ⟨stream, ⟨bytes, capacity, fits⟩, received, moments⟩ := s
  dsimp only at hroom hmore
  obtain ⟨len, hlen⟩ : ∃ len, len = min capacity length.val := ⟨_, rfl⟩
  have hbounds : bytes.length < len ∧ len ≤ capacity ∧ len ≤ length.val := by omega
  let resized := (Buffer.mk bytes capacity fits).resize len
  have hbytes : resized.bytes = bytes ++ List.replicate (len - bytes.length) 0 := by
    show bytes.take len ++ _ = _
    rw [List.take_of_length_le hbounds.1.le]
  have hwanted : resized.bytes.length - bytes.length = len - bytes.length := by
    rw [hbytes, List.length_append, List.length_replicate]
    omega
  have hcapacity : resized.capacity = capacity := max_eq_left hbounds.2.1
  show (readInto bytes.length).wp allocates
    ⟨stream, (Buffer.mk bytes capacity fits).resize (min capacity length.val), received, _⟩ _ _
  rw [← hlen]
  show (readExact _ (resized.bytes.length - bytes.length) >>= _ : Reader Unit).wp allocates
    ⟨stream, resized, received, ⟨received, resized.capacity⟩ :: moments⟩ _ _
  rw [wp_bind, hwanted]
  refine wp_readExact (fun hle => ?_) fun hlt => ?_
  · change len - bytes.length ≤ stream.length at hle
    have hnew : (resized.overwrite bytes.length (stream.take (len - bytes.length))).bytes
        = bytes ++ stream.take (len - bytes.length) := by
      show resized.bytes.take bytes.length ++ (stream.take _).take (resized.bytes.length - bytes.length) = _
      rw [hbytes, List.take_left' rfl, ← hbytes, hwanted, List.take_take, min_self]
    have htaken : (stream.take (len - bytes.length)).length = len - bytes.length :=
      List.length_take_of_le hle
    have hnewlen : (resized.overwrite bytes.length (stream.take (len - bytes.length))).bytes.length
        = len := by
      rw [hnew, List.length_append, htaken]
      omega
    refine ⟨?_, ?_, ?_, fun hw => ?_⟩
    · exact hbounds.1.trans_eq hnewlen.symm
    · exact hnewlen.trans_le hbounds.2.2
    · show (resized.overwrite bytes.length _).bytes ++ stream.drop (len - bytes.length) = bytes ++ stream
      rw [hnew, List.append_assoc, List.take_append_drop]
    · have hreceived : received = bytes.length := hw.received
      have hnow : Bounded length ⟨received + (stream.take (len - bytes.length)).length, resized.capacity⟩ := by
        rw [hcapacity]
        exact hw.now.mono (Nat.le_add_right _ _)
      refine ⟨?_, hnow, hnow.cons ?_⟩
      · show received + _ = (resized.overwrite bytes.length _).bytes.length
        rw [hnewlen, htaken, hreceived]
        omega
      · show ∀ m ∈ ⟨received, resized.capacity⟩ :: moments, Bounded length m
        rw [hcapacity]
        exact hw.now.cons hw.past
  · change stream.length < len - bytes.length at hlt
    refine ⟨⟨rfl, ?_⟩, fun hw => ?_⟩
    · show bytes.length + stream.length < length.val
      omega
    · show ∀ m ∈ ⟨received, resized.capacity⟩ :: moments, Bounded length m
      rw [hcapacity]
      exact hw.now.cons hw.past

theorem round_spec (hmore : s.buffer.bytes.length < length.val) :
    (round length).wp allocates s
      (fun _ s' => s.buffer.bytes.length < s'.buffer.bytes.length
        ∧ s'.buffer.bytes.length ≤ length.val
        ∧ s'.buffer.bytes ++ s'.stream = s.buffer.bytes ++ s.stream
        ∧ (Within length s → Within length s'))
      (fun e s' => (e = .bail "unable to allocate sync protocol frame" ∧ Scarce length allocates
          ∨ e = .io "unable to read sync protocol frame" .other
            ∧ s.buffer.bytes.length + s.stream.length < length.val)
        ∧ (Within length s → ∀ m ∈ s'.moments, Bounded length m)) := by
  unfold round
  refine wp_seq (grow_spec hmore) ?_ ?_
  · rintro ⟨⟩ s' ⟨hbytes, hstream, hreceived, hcapacity, hgrown⟩
    have hwithin : Within length s → Within length s' := by
      intro hw
      rcases hgrown with ⟨hsame, hmoments⟩ | ⟨hfull, hcap, hmoments⟩
      · refine ⟨?_, ?_, ?_⟩
        · rw [hreceived, hbytes, hw.received]
        · rw [hreceived, hsame]
          exact hw.now
        · rw [hmoments]
          exact hw.past
      · have hnow : Bounded length ⟨s.received, s'.buffer.capacity⟩ := by
          rw [hcap, hw.received, hfull]
          unfold Bounded grown
          exact ⟨(min_le_left _ _).trans (max_comm _ _).le, min_le_right _ _⟩
        refine ⟨?_, ?_, ?_⟩
        · rw [hreceived, hbytes, hw.received]
        · rw [hreceived]
          exact hnow
        · rw [hmoments]
          exact hnow.cons hw.past
    have hrefill := @refill_spec length allocates s' (by rw [hbytes]; exact hcapacity)
      (by rw [hbytes]; exact hmore)
    rw [hbytes, hstream] at hrefill
    refine wp_mono hrefill ?_ ?_
    · rintro ⟨⟩ s'' ⟨hless, hle, hsplit, hkeeps⟩
      exact ⟨hless, hle, hsplit, fun hw => hkeeps (hwithin hw)⟩
    · rintro e s'' ⟨he, hkeeps⟩
      exact ⟨.inr he, fun hw => hkeeps (hwithin hw)⟩
  · rintro e s' ⟨rfl, he⟩
    exact ⟨.inl he, fun hw => hw.past⟩

end Round

/-! ## The loop -/

/-- The loop of `read_frame`.  It ends, as every round reads something. -/
def fill (length : U32) (allocates : Nat → Bool) (s : Reading) : EStateM.Result Error Reading Unit :=
  if hmore : s.buffer.bytes.length < length.val then
    match hround : round length allocates s with
    | .ok _ s' =>
        have _ : s.buffer.bytes.length < s'.buffer.bytes.length :=
          (wp_ok (round_spec hmore) hround).1
        fill length allocates s'
    | .error e s' => .error e s'
  else .ok () s
termination_by length.val - s.buffer.bytes.length

/-- `clear`, for a message of which nothing has come. -/
def clear : Reader Unit :=
  modify fun s =>
    ⟨s.stream, s.buffer.clear, 0, ⟨0, s.buffer.capacity⟩ :: s.moments⟩

def readFrame (limit : Nat) : Reader Unit := do
  let header ← readExact "unable to read sync protocol frame length" 4
  let length := ofBe header
  if hlength : length < 2 ^ 32 then do
    Prog.ofExcept
      (rejectIf (length > limit) (.bail "sync protocol frame exceeds its maximum size"))
    clear
    fill ⟨length, hlength⟩
  -- four bytes do not get here
  else throw (.bail "sync protocol frame length overflow")

/-- A reader that has a new buffer. -/
def Reading.start (stream : List Byte) : Reading := ⟨stream, .new, 0, []⟩

section Loop

variable {length : U32} {allocates : Nat → Bool}

theorem fill_spec (s : Reading) (hle : s.buffer.bytes.length ≤ length.val) :
    Prog.wp (fill length) allocates s
      (fun _ s' => s'.buffer.bytes.length = length.val
        ∧ s'.buffer.bytes ++ s'.stream = s.buffer.bytes ++ s.stream
        ∧ (Within length s → Within length s'))
      (fun e s' => (e = .bail "unable to allocate sync protocol frame" ∧ Scarce length allocates
          ∨ e = .io "unable to read sync protocol frame" .other
            ∧ s.buffer.bytes.length + s.stream.length < length.val)
        ∧ (Within length s → ∀ m ∈ s'.moments, Bounded length m)) := by
  unfold Prog.wp
  fun_induction fill length allocates s with
  | case1 s hmore _ s' hround hless ih =>
      obtain ⟨-, hle', hsplit, hkeeps⟩ := wp_ok (round_spec hmore) hround
      have ih := ih hle'
      cases hfill : fill length allocates s' with
      | ok u s'' =>
          rw [hfill] at ih
          obtain ⟨hlen, hsplit', hkeeps'⟩ := ih
          exact ⟨hlen, hsplit'.trans hsplit, fun hw => hkeeps' (hkeeps hw)⟩
      | error e s'' =>
          rw [hfill] at ih
          obtain ⟨hcause, hkeeps'⟩ := ih
          refine ⟨hcause.imp_right fun ⟨he, hshort⟩ => ⟨he, ?_⟩, fun hw => hkeeps' (hkeeps hw)⟩
          have hsum := congrArg List.length hsplit
          rw [List.length_append, List.length_append] at hsum
          omega
  | case2 s hmore e s' hround =>
      have herror := wp_error (round_spec hmore) hround
      exact herror
  | case3 s hdone => exact ⟨le_antisymm hle (Nat.not_lt.mp hdone), rfl, id⟩

end Loop

/-! ## Frames -/

section Frame

variable {allocates : Nat → Bool} {limit : Nat} {stream : List Byte}

/-- The length that a stream announces. -/
def announced (stream : List Byte) : U32 := ⟨ofBe (stream.take 4) % 2 ^ 32, Nat.mod_lt _ (by decide)⟩

theorem announced_val (stream : List Byte) : (announced stream).val = ofBe (stream.take 4) := by
  refine Nat.mod_eq_of_lt ((ofBe_lt _).trans_le ?_)
  exact Nat.pow_le_pow_right (by decide) ((List.length_take_le _ _).trans (by decide) : _ ≤ 4)

/-- What is read of a stream, and what may keep it from being read. -/
theorem readFrame_spec :
    (readFrame limit).wp allocates (.start stream)
      (fun _ s' => 4 ≤ stream.length ∧ (announced stream).val ≤ limit
        ∧ s'.buffer.bytes = (stream.drop 4).take (announced stream).val
        ∧ s'.stream = (stream.drop 4).drop (announced stream).val
        ∧ Within (announced stream) s')
      (fun e s' => (∀ m ∈ s'.moments, Bounded (announced stream) m)
        ∧ (stream.length < 4 ∧ e = .io "unable to read sync protocol frame length" .other
          ∨ limit < (announced stream).val ∧ s' = .start (stream.drop 4)
            ∧ e = .bail "sync protocol frame exceeds its maximum size"
          ∨ (announced stream).val ≤ limit
            ∧ (e = .bail "unable to allocate sync protocol frame" ∧ Scarce (announced stream) allocates
              ∨ e = .io "unable to read sync protocol frame" .other
                ∧ stream.length < 4 + (announced stream).val))) := by
  unfold readFrame
  rw [wp_bind]
  refine wp_readExact (fun hheader => ?_) fun hshort => ?_
  · change 4 ≤ stream.length at hheader
    have hlength : ofBe (stream.take 4) < 2 ^ 32 := announced_val stream ▸ (announced stream).isLt
    have hannounced : (⟨ofBe (stream.take 4), hlength⟩ : U32) = announced stream :=
      Fin.ext (announced_val stream).symm
    show Prog.wp (if hlength : ofBe (stream.take 4) < 2 ^ 32 then _ else _) allocates
      (Reading.start (stream.drop 4)) _ _
    rw [dif_pos hlength, wp_bind]
    refine wp_rejectIf (fun hlong => ?_) fun hfits => ?_
    · rw [← announced_val] at hlong
      exact ⟨fun m hm => (by cases hm), .inr (.inl ⟨hlong, rfl, rfl⟩)⟩
    · rw [← announced_val, Nat.not_lt] at hfits
      show Prog.wp (clear >>= fun _ => fill ⟨ofBe (stream.take 4), hlength⟩) allocates
        (Reading.start (stream.drop 4)) _ _
      rw [hannounced]
      have hstart : Within (announced stream) ⟨stream.drop 4, .new, 0, [⟨0, 0⟩]⟩ := by
        have hzero : Bounded (announced stream) ⟨0, 0⟩ := ⟨Nat.zero_le _, Nat.zero_le _⟩
        exact ⟨rfl, hzero, hzero.cons fun m hm => (by cases hm)⟩
      refine wp_mono (fill_spec ⟨stream.drop 4, .new, 0, [⟨0, 0⟩]⟩ (Nat.zero_le _)) ?_ ?_
      · rintro ⟨⟩ s' ⟨hlen, hsplit, hkeeps⟩
        have hsplit : s'.buffer.bytes ++ s'.stream = stream.drop 4 := hsplit
        refine ⟨hheader, hfits, ?_, ?_, hkeeps hstart⟩
        · rw [← hsplit, List.take_left' hlen]
        · rw [← hsplit, List.drop_left' hlen]
      · rintro e s' ⟨hcause, hkeeps⟩
        refine ⟨hkeeps hstart, .inr (.inr ⟨hfits, hcause.imp_right fun ⟨he, hshort⟩ => ⟨he, ?_⟩⟩)⟩
        have hshort : 0 + (stream.drop 4).length < (announced stream).val := hshort
        rw [List.length_drop] at hshort
        omega
  · exact ⟨fun m hm => (by cases hm), .inl ⟨hshort, rfl⟩⟩

theorem writeJson_eq_ok {α : Type} [Serde α] {value : α} {sent : List Byte} :
    writeJson value limit = .ok sent ↔ (Serde.toWriter value).length ≤ limit
      ∧ (Serde.toWriter value).length < 2 ^ 32
      ∧ sent = toBe 4 (Serde.toWriter value).length ++ Serde.toWriter value := by
  simp only [writeJson, andThen_eq_ok, rejectIf_eq_ok, gt_iff_lt, not_lt, ge_iff_le, not_le,
    Except.ok.injEq]
  exact and_congr_right fun _ => and_congr_right fun _ => eq_comm

theorem announced_frame {payload : List Byte} (hlen : payload.length < 2 ^ 32) (rest : List Byte) :
    (announced (toBe 4 payload.length ++ payload ++ rest)).val = payload.length
      ∧ (toBe 4 payload.length ++ payload ++ rest).drop 4 = payload ++ rest := by
  rw [announced_val, List.append_assoc, List.take_left' (length_toBe 4 _), List.drop_left' (length_toBe 4 _)]
  exact ⟨ofBe_toBe hlen, rfl⟩

theorem readFrame_writeJson {α : Type} [Serde α] {value : α} {sent : List Byte} (rest : List Byte)
    (hwrite : writeJson value limit = .ok sent)
    (hmemory : ∀ n ≤ (Serde.toWriter value).length, allocates n = true) :
    ∃ s', readFrame limit allocates (.start (sent ++ rest)) = .ok () s'
      ∧ s'.buffer.bytes = Serde.toWriter value ∧ s'.stream = rest := by
  obtain ⟨hfits, hlen, rfl⟩ := writeJson_eq_ok.mp hwrite
  obtain ⟨hannounced, hdrop⟩ := announced_frame hlen rest
  have hspec := @readFrame_spec allocates limit (toBe 4 (Serde.toWriter value).length
    ++ Serde.toWriter value ++ rest)
  rw [hannounced, hdrop] at hspec
  have hspec : (readFrame limit).wp allocates (.start (toBe 4 (Serde.toWriter value).length
      ++ Serde.toWriter value ++ rest))
      (fun _ s' => s'.buffer.bytes = Serde.toWriter value ∧ s'.stream = rest) fun _ _ => False := by
    refine wp_mono hspec ?_ ?_
    · rintro ⟨⟩ s' ⟨-, -, hbytes, hstream, -⟩
      rw [hbytes, hstream]
      exact ⟨List.take_left' rfl, List.drop_left' rfl⟩
    · rintro e s' ⟨-, ⟨hshort, -⟩ | ⟨hlong, -⟩ | ⟨-, ⟨-, n, hn, hscarce⟩ | ⟨-, hshort⟩⟩⟩
      · rw [List.length_append, List.length_append, length_toBe] at hshort
        omega
      · omega
      · rw [hmemory n (hannounced ▸ hn)] at hscarce
        cases hscarce
      · rw [List.length_append, List.length_append, length_toBe] at hshort
        omega
  obtain ⟨⟨⟩, s', hrun, hread⟩ := exists_ok_of_wp hspec
  exact ⟨s', hrun, hread⟩

/-- A frame followed by anything is read as its payload, and nothing more is consumed.  Whatever
comes, no subtraction fails, a length over the limit is refused before memory is reserved, and the
buffer is at all times no larger than what was announced, and than 64 KiB or twice what has come. -/
theorem frames_bounded :
    (∀ {α : Type} [Serde α] {value : α} {limit : Nat} {sent : List Byte} (rest : List Byte)
        {allocates : Nat → Bool}, writeJson value limit = .ok sent →
        (∀ n ≤ (Serde.toWriter value).length, allocates n = true) →
        ∃ s', readFrame limit allocates (.start (sent ++ rest)) = .ok () s'
          ∧ s'.buffer.bytes = Serde.toWriter value ∧ s'.stream = rest)
      ∧ ∀ stream limit allocates,
        (readFrame limit).wp allocates (.start stream)
          (fun _ s' => ∀ m ∈ s'.moments, Bounded (announced stream) m)
          (fun e s' => (∀ m ∈ s'.moments, Bounded (announced stream) m) ∧ ∀ text, e ≠ .panic text)
        ∧ (4 ≤ stream.length → limit < (announced stream).val →
          readFrame limit allocates (.start stream)
            = .error (.bail "sync protocol frame exceeds its maximum size") (.start (stream.drop 4))) := by
  refine ⟨?_, fun stream limit allocates => ⟨?_, fun hheader hlong => ?_⟩⟩
  · intro α _ value limit sent rest allocates hwrite hmemory
    exact readFrame_writeJson rest hwrite hmemory
  · refine wp_mono readFrame_spec (fun _ _ hok => hok.2.2.2.2.past) ?_
    rintro e s' ⟨hmoments, hcause⟩
    refine ⟨hmoments, fun text heq => ?_⟩
    subst heq
    rcases hcause with ⟨-, hc⟩ | ⟨-, -, hc⟩ | ⟨-, ⟨hc, -⟩ | ⟨hc, -⟩⟩ <;> cases hc
  · cases hrun : readFrame limit allocates (.start stream) with
    | ok u s' =>
        have hfits := (wp_ok readFrame_spec hrun).2.1
        omega
    | error e s' =>
        rcases (wp_error readFrame_spec hrun).2 with ⟨hshort, -⟩ | ⟨-, rfl, rfl⟩ | ⟨hfits, -⟩
        · omega
        · rfl
        · omega

/-- Three bytes and what follows them, and a length that is too large. -/
theorem frames_bounded_three_bytes :
    let _ : Serde (List Byte) := ⟨id, some⟩
    let payload : List Byte := [1, 2, 3]
    writeJson payload 10 = .ok [0, 0, 0, 3, 1, 2, 3]
      ∧ (∃ s', readFrame 10 (fun _ => true) (.start [0, 0, 0, 3, 1, 2, 3, 9]) = .ok () s'
        ∧ s'.buffer.bytes = payload ∧ s'.stream = [9])
      ∧ readFrame 10 (fun _ => true) (.start [0, 0, 0, 11])
        = .error (.bail "sync protocol frame exceeds its maximum size") (.start []) := by
  intro _ payload
  have hwrite : writeJson payload 10 = .ok [0, 0, 0, 3, 1, 2, 3] := by decide
  exact ⟨hwrite, frames_bounded.1 [9] hwrite fun _ _ => rfl,
    (frames_bounded.2 [0, 0, 0, 11] 10 fun _ => true).2 (by decide) (by decide)⟩

end Frame

end Syncbox.Frame
