/-
# `Syncbox.Network.Resume` — several sessions, one partial file

A partial file is shared by all sessions of a device that transfer the same version of a
file.  A session looks at it twice: it announces the offset at which it wants to resume, and
later opens the file at that offset.  An upload does both under `receive_lock`
(`handle_sync_stream` of `src/network/incoming.rs`).  A download announces before it takes
the lock (`sync_with_peer` of `src/network/client.rs`), and in between other sessions may
have truncated the file or, having completed it, taken it away: then the offset is no longer
covered, and `ensure_partial_file` fills the gap with zeroes.

The sessions of a device are a transition system whose steps run the functions of
`Network.Transfer`, `Network.Chunk` and the clean-up after an apply.  Peers are honest: what
they send is the content.  What happens elsewhere on the disk may happen at any time.
-/
import Syncbox.Network.Receive

namespace Syncbox

open Rust Unix Prog

/-! ## Sessions -/

/-- Where a session is with its transfer of the file. -/
inductive Phase where
  | idle
  /-- A download has announced its offset and waits for `receive_lock`. -/
  | planned (offset : U64)
  /-- The session holds the lock and is about to open the partial file. -/
  | ready (offset : U64)
  /-- The file is open and complete up to the offset. -/
  | receiving (offset : Nat)
  | verified
  | ended
  deriving DecidableEq

/-- The session holds `receive_lock`. -/
def Phase.holds : Phase → Bool
  | ready _ | receiving _ | verified => true
  | _ => false

structure Device where
  world : World
  /-- The session that holds `receive_lock`. -/
  lock : Option Nat
  sessions : Nat → Phase

/-- What a session does next. -/
inductive Event where
  /-- `make_transfer_request` looks at the partial file. -/
  | plan (s : Nat)
  /-- A download takes the lock. -/
  | acquire (s : Nat)
  /-- An upload takes the lock, and `make_transfer_ready` looks at the partial file. -/
  | offer (s : Nat)
  | ensure (s : Nat)
  /-- A chunk of this many bytes arrives and is written. -/
  | chunk (s : Nat) (count : Nat)
  | verify (s : Nat)
  /-- An apply that has moved the partial file away, or has removed it in the end. -/
  | install (s : Nat)
  /-- The session fails, or its apply does before it has moved the partial file. -/
  | fail (s : Nat)

namespace Device

/-- A session moves on.  One that no longer holds the lock releases it. -/
def enter (dev : Device) (s : Nat) (world : World) (phase : Phase) : Device where
  world := world
  lock := if phase.holds then some s else if dev.lock = some s then none else dev.lock
  sessions := Function.update dev.sessions s phase

/-- A session runs a program, and ends where it fails. -/
def perform {α : Type} (h : Host) (dev : Device) (s : Nat) (m : Fs α) (next : α → Phase) : Device :=
  match m h dev.world with
  | .ok a w => dev.enter s w (next a)
  | .error _ w => dev.enter s w .ended

@[simp]
theorem enter_self {dev : Device} {s : Nat} {w : World} {phase : Phase} :
    (dev.enter s w phase).sessions s = phase :=
  Function.update_self ..

theorem enter_other {dev : Device} {s s' : Nat} {w : World} {phase : Phase} (hne : s' ≠ s) :
    (dev.enter s w phase).sessions s' = dev.sessions s' :=
  Function.update_of_ne hne ..

variable [Crypto] (h : Host) (tmp : PathBuf) (file : TransferFile) (content : Content)

/-- The partial file. -/
def partialOf : PathBuf := partialPath tmp file.path file.sha256

/-- One event, where it can happen. -/
def act (dev : Device) : Event → Option Device
  | .plan s =>
      if dev.sessions s = .idle then
        some (dev.perform h s (partialSize tmp file.path file.sha256 file.size) .planned)
      else none
  | .acquire s =>
      match dev.sessions s, dev.lock with
      | .planned offset, none => some (dev.enter s dev.world (.ready offset))
      | _, _ => none
  | .offer s =>
      if dev.sessions s = .idle ∧ dev.lock = none then
        some (dev.perform h s (partialSize tmp file.path file.sha256 file.size) .ready)
      else none
  | .ensure s =>
      match dev.sessions s with
      | .ready offset => some (dev.perform h s (ensurePartialFile (partialOf tmp file) offset)
          fun _ => .receiving offset)
      | _ => none
  | .chunk s count =>
      match dev.sessions s with
      | .receiving offset =>
          if 0 < count ∧ offset + count ≤ file.size then
            some (dev.perform h s (context ("unable to write transfer partial "
                ++ display (partialOf tmp file))
              (writeAt (stagedAt tmp file) offset ((content.val.drop offset).take count)))
              fun _ => .receiving (offset + count))
          else none
      | _ => none
  | .verify s =>
      if dev.sessions s = .receiving file.size then
        some (dev.perform h s (verifyPartial (partialOf tmp file) file) fun _ => .verified)
      else none
  | .install s =>
      if dev.sessions s = .verified then
        some (dev.perform h s (unlink (partialOf tmp file)) fun _ => .ended)
      else none
  | .fail s => some (dev.enter s dev.world .ended)

/-- A run of a device: events of its sessions, each where `G` allows it, and changes of the
disk that leave the staging directory and the partial file alone. -/
inductive Run (G : Device → Event → Prop) (start : Device) : Device → Prop
  | start : Run G start start
  | act {dev dev' : Device} (e : Event) (run : Run G start dev) (hg : G dev e)
      (hact : dev.act h tmp file content e = some dev') : Run G start dev'
  | elsewhere {dev : Device} (w : World) (run : Run G start dev) (hreach : Reachable w.disk tmp)
      (hsame : w.disk.get (stagedAt tmp file) = dev.world.disk.get (stagedAt tmp file)) :
      Run G start { dev with world := w }

/-- No session has begun, and what is left of an earlier transfer is a beginning of the
content. -/
structure Fresh (dev : Device) : Prop where
  idle : ∀ s, dev.sessions s = .idle
  reach : Reachable dev.world.disk tmp
  valid : dev.world.disk.bytes (stagedAt tmp file) <+: content.val

end Device

/-! ## What the steps do to the partial file -/

section Effects

variable [Crypto] {h : Host} {w : World} {tmp : PathBuf} {file : TransferFile} {content : Content}

/-- Looking at the partial file does not change it, unless it is too long. -/
theorem partialSize_keeps (hd : Direct w.disk (partialPath tmp file.path file.sha256))
    (hfits : (w.disk.bytes (stagedAt tmp file)).length ≤ file.size) :
    (partialSize tmp file.path file.sha256 file.size).wp h w
      (fun offset w' => w'.disk = w.disk
        ∧ offset.val ≤ (w.disk.bytes (stagedAt tmp file)).length)
      fun _ w' => w'.disk = w.disk := by
  unfold partialSize
  dsimp only
  refine wp_then (lstat_spec hd) fun r w' hlook => ?_
  split
  · rename_i c m t
    have hbytes : w.disk.bytes (stagedAt tmp file) = c.val := by
      have hget : w.disk.get (stagedAt tmp file) = some (.file c m t) := hlook.ok rfl
      simp [Disk.bytes, hget]
    rw [hbytes] at hfits ⊢
    rw [if_pos (show c.len ≤ file.size from hfits)]
    exact ⟨hlook.same.disk, le_rfl⟩
  · exact hlook.same.disk
  · exact ⟨hlook.same.disk, Nat.zero_le _⟩
  · exact hlook.same.disk

/-- The partial file is open and complete up to the offset. -/
def OpenAt (tmp : PathBuf) (file : TransferFile) (content : Content) (d : Disk) (offset : Nat) : Prop :=
  offset ≤ content.val.length
    ∧ ∃ c m t, d.get (stagedAt tmp file) = some (.file c m t) ∧ c.val = content.val.take offset

theorem OpenAt.bytes {d : Disk} {offset : Nat} (ho : OpenAt tmp file content d offset) :
    d.bytes (stagedAt tmp file) = content.val.take offset := by
  obtain ⟨-, c, m, t, hget, hc⟩ := ho
  simp [Disk.bytes, hget, hc]

theorem OpenAt.congr {d d' : Disk} {offset : Nat} (ho : OpenAt tmp file content d offset)
    (hget : d'.get (stagedAt tmp file) = d.get (stagedAt tmp file)) :
    OpenAt tmp file content d' offset := by
  unfold OpenAt
  rw [hget]
  exact ho

/-- Opened at an offset that is covered, the partial file is complete up to it. -/
theorem ensurePartialFile_covered {offset : U64} (hr : Reachable w.disk tmp)
    (hvalid : w.disk.bytes (stagedAt tmp file) <+: content.val)
    (hcovered : offset.val ≤ (w.disk.bytes (stagedAt tmp file)).length) :
    (ensurePartialFile (partialPath tmp file.path file.sha256) offset).wp h w
      (fun _ w' => Reachable w'.disk tmp ∧ OpenAt tmp file content w'.disk offset)
      fun _ w' => Reachable w'.disk tmp
        ∧ w'.disk.bytes (stagedAt tmp file) = w.disk.bytes (stagedAt tmp file) := by
  refine wp_mono (ensurePartialFile_spec (hr.direct file)
    (isFileName_partialName file.path file.sha256)) ?_ ?_
  · rintro _ w' ⟨-, hgrown, c, m, t, hget, hc, -⟩
    refine ⟨hr.grown hgrown, hcovered.trans hvalid.length_le, c, m, t, hget, ?_⟩
    refine hc.trans ?_
    show resized (w.disk.bytes (stagedAt tmp file)) offset = _
    rw [resized, Nat.sub_eq_zero_of_le hcovered, List.replicate_zero, List.append_nil]
    obtain ⟨rest, hrest⟩ := hvalid
    rw [← hrest, List.take_append_of_le_length hcovered]
  · rintro _ w' ⟨hgrown, hbytes, -⟩
    exact ⟨hr.grown hgrown, hbytes⟩

theorem writeAt_open {text : String} {offset count : Nat} (hr : Reachable w.disk tmp)
    (ho : OpenAt tmp file content w.disk offset) (hfits : offset + count ≤ content.val.length) :
    (context text (writeAt (stagedAt tmp file) offset ((content.val.drop offset).take count))).wp h w
      (fun _ w' => Reachable w'.disk tmp ∧ OpenAt tmp file content w'.disk (offset + count))
      fun _ w' => Reachable w'.disk tmp
        ∧ ∃ n, offset ≤ n ∧ n ≤ content.val.length
          ∧ w'.disk.bytes (stagedAt tmp file) = content.val.take n := by
  obtain ⟨hle, c, m, t, hget, hc⟩ := ho
  have hlen : c.val.length = offset := by rw [hc, List.length_take, min_eq_left hle]
  have hset : ∀ {w' : World} {o : Option Node}, Sets w.disk (stagedAt tmp file) o w'.disk →
      Reachable w'.disk tmp := fun {w' _} hs =>
    hr.grown (show Grown {stagedAt tmp file} [] 0 w.disk w'.disk from .of_sets hs rfl)
  have happend : ∀ k, c.val ++ (content.val.drop offset).take k = content.val.take (offset + k) :=
    fun k => by rw [hc, ← List.take_add]
  rw [wp_context]
  refine wp_conseq (writeAt_spec hget) fun r w' hw => ?_
  rcases hw with ⟨rfl, c', t', hc', hdid⟩ | ⟨kind, rfl, hsame | ⟨c', t', k, hc', hdid⟩, -⟩
  · rw [overwrite_at_end hlen, happend] at hc'
    exact ⟨hset hdid.sets, hfits, c', m, t', hdid.sets.at, hc'⟩
  · refine ⟨by rw [hsame.disk]; exact hr, offset, le_rfl, hle, ?_⟩
    rw [hsame.disk]
    simp [Disk.bytes, hget, hc]
  · rw [overwrite_at_end hlen, List.take_take, happend] at hc'
    refine ⟨hset hdid.sets, offset + min k count, Nat.le_add_right _ _, ?_, ?_⟩
    · have := min_le_right k count
      omega
    · simp [Disk.bytes, hdid.sets.at, hc']

/-- Complete up to its size, the partial file is the content. -/
theorem OpenAt.whole {d : Disk} (ho : OpenAt tmp file content d file.size)
    (hannounced : file.Announces content) :
    ∃ m t, d.get (stagedAt tmp file) = some (.file content m t) := by
  obtain ⟨-, c, m, t, hget, hc⟩ := ho
  rw [← hannounced.1] at hc
  have hwhole : c.val = content.val := hc.trans (List.take_length ..)
  cases Subtype.ext hwhole
  exact ⟨m, t, hget⟩

theorem verifyPartial_open (hr : Reachable w.disk tmp) (ho : OpenAt tmp file content w.disk file.size)
    (hannounced : file.Announces content) :
    (verifyPartial (partialPath tmp file.path file.sha256) file).wp h w
      (fun _ w' => w'.disk = w.disk) fun _ w' => w'.disk = w.disk := by
  obtain ⟨m, t, hget⟩ := ho.whole hannounced
  refine wp_mono (verifyPartial_spec (hr.direct file) hget) ?_ ?_
  · exact fun _ _ hv => hv.1
  · exact fun _ _ hv => hv.1 hannounced

end Effects

/-! ## The invariant -/

namespace Device

variable [Crypto] {h : Host} {tmp : PathBuf} {file : TransferFile} {content : Content}
  {dev dev' : Device}

/-- The condition under which an event spares what others have announced: no session opens
the partial file below an offset that another has planned, and none installs it while another
has planned to resume it. -/
def Guarded (dev : Device) : Event → Prop
  | .ensure s => ∀ offset, dev.sessions s = .ready offset →
      ∀ s' offset', dev.sessions s' = .planned offset' → offset' ≤ offset
  | .install _ => ∀ s' offset', dev.sessions s' = .planned offset' → offset' = 0
  | _ => True

/-- A session has announced the offset and not yet used it. -/
def Announced (dev : Device) (s : Nat) (offset : U64) : Prop :=
  dev.sessions s = .planned offset ∨ dev.sessions s = .ready offset

structure Inv (tmp : PathBuf) (file : TransferFile) (content : Content) (dev : Device) : Prop where
  reach : Reachable dev.world.disk tmp
  valid : dev.world.disk.bytes (stagedAt tmp file) <+: content.val
  lock : ∀ {s}, (dev.sessions s).holds = true → dev.lock = some s
  covered : ∀ {s offset}, dev.Announced s offset →
    offset.val ≤ (dev.world.disk.bytes (stagedAt tmp file)).length
  opened : ∀ {s offset}, dev.sessions s = .receiving offset →
    OpenAt tmp file content dev.world.disk offset

theorem Fresh.inv (hf : Fresh tmp file content dev) : Inv tmp file content dev where
  reach := hf.reach
  valid := hf.valid
  lock := fun {s} hs => by rw [hf.idle s] at hs; cases hs
  covered := fun {s _} hs => by simp [Announced, hf.idle s] at hs
  opened := fun {s _} hs => by rw [hf.idle s] at hs; cases hs

theorem Inv.perform {α : Type} {s : Nat} {m : Fs α} {next : α → Phase}
    (hm : m.wp h dev.world (fun a w => Inv tmp file content (dev.enter s w (next a)))
      fun _ w => Inv tmp file content (dev.enter s w .ended)) :
    Inv tmp file content (dev.perform h s m next) := by
  unfold Device.perform
  cases hrun : m h dev.world with
  | ok a w =>
      have hok := wp_ok hm hrun
      exact hok
  | error e w =>
      have herror := wp_error hm hrun
      exact herror

namespace Inv

variable {s s' : Nat} {w : World} {phase : Phase} (hi : Inv tmp file content dev)
include hi

/-- A session moves on: what is left to show concerns the disk, the phase it enters and what
the others rely on. -/
theorem enter (hlock : phase.holds = true → dev.lock = none ∨ dev.lock = some s)
    (hreach : Reachable w.disk tmp) (hvalid : w.disk.bytes (stagedAt tmp file) <+: content.val)
    (hcovered : ∀ {offset : U64}, phase = .planned offset ∨ phase = .ready offset →
      offset.val ≤ (w.disk.bytes (stagedAt tmp file)).length)
    (hopened : ∀ {offset}, phase = .receiving offset → OpenAt tmp file content w.disk offset)
    (hothers : ∀ {s' offset}, s' ≠ s → dev.Announced s' offset →
      offset.val ≤ (w.disk.bytes (stagedAt tmp file)).length)
    (hopen : ∀ {s' offset}, s' ≠ s → dev.sessions s' = .receiving offset →
      OpenAt tmp file content w.disk offset) :
    Inv tmp file content (dev.enter s w phase) where
  reach := hreach
  valid := hvalid
  lock := by
    intro s' hs'
    by_cases heq : s' = s
    · subst heq
      rw [enter_self] at hs'
      simp [Device.enter, hs']
    · rw [enter_other heq] at hs'
      have hheld := hi.lock hs'
      have hfree : phase.holds = false := by
        by_contra hholds
        rw [Bool.not_eq_false] at hholds
        rcases hlock hholds with hnone | hsome
        · rw [hheld] at hnone
          cases hnone
        · rw [hheld] at hsome
          cases hsome
          exact heq rfl
      simp [Device.enter, hfree, hheld, heq]
  covered := by
    intro s' offset hs'
    by_cases heq : s' = s
    · subst heq
      rw [Announced, enter_self] at hs'
      exact hcovered hs'
    · rw [Announced, enter_other heq] at hs'
      exact hothers heq hs'
  opened := by
    intro s' offset hs'
    by_cases heq : s' = s
    · subst heq
      rw [enter_self] at hs'
      exact hopened hs'
    · rw [enter_other heq] at hs'
      exact hopen heq hs'

theorem enter_same (hdisk : w.disk = dev.world.disk)
    (hlock : phase.holds = true → dev.lock = none ∨ dev.lock = some s)
    (hcovered : ∀ {offset : U64}, phase = .planned offset ∨ phase = .ready offset →
      offset.val ≤ (dev.world.disk.bytes (stagedAt tmp file)).length)
    (hopened : ∀ {offset}, phase ≠ .receiving offset) :
    Inv tmp file content (dev.enter s w phase) := by
  refine hi.enter hlock ?_ ?_ ?_ (fun heq => absurd heq hopened) ?_ ?_ <;> rw [hdisk]
  · exact hi.reach
  · exact hi.valid
  · exact hcovered
  · exact fun _ hs => hi.covered hs
  · exact fun _ hs => hi.opened hs

theorem enter_ended (hdisk : w.disk = dev.world.disk) : Inv tmp file content (dev.enter s w .ended) := by
  refine hi.enter_same hdisk ?_ ?_ ?_
  · intro hholds
    cases hholds
  · intro offset hphase
    rcases hphase with hphase | hphase <;> cases hphase
  · intro offset hphase
    cases hphase

theorem alone (hs : (dev.sessions s).holds = true) (hs' : (dev.sessions s').holds = true) : s' = s := by
  have heq := (hi.lock hs).symm.trans (hi.lock hs')
  cases heq
  rfl

theorem planned {offset : U64} (hs : (dev.sessions s).holds = true) (hne : s' ≠ s)
    (ha : dev.Announced s' offset) :
    dev.sessions s' = .planned offset := by
  rcases ha with hplanned | hready
  · exact hplanned
  · exact absurd (hi.alone hs (by rw [hready]; rfl)) hne

/-- The holder of the lock moves on.  The others matter only for what they have planned. -/
theorem enter_held (hs : (dev.sessions s).holds = true) (hreach : Reachable w.disk tmp)
    (hvalid : w.disk.bytes (stagedAt tmp file) <+: content.val)
    (hphase : phase = .ended ∨ phase = .verified
      ∨ ∃ offset, phase = .receiving offset ∧ OpenAt tmp file content w.disk offset)
    (hothers : ∀ {s' offset}, s' ≠ s → dev.sessions s' = .planned offset →
      offset.val ≤ (w.disk.bytes (stagedAt tmp file)).length) :
    Inv tmp file content (dev.enter s w phase) := by
  refine hi.enter (fun _ => .inr (hi.lock hs)) hreach hvalid ?_ ?_
    (fun hne ha => hothers hne (hi.planned hs hne ha)) ?_
  · intro offset hp
    rcases hphase with rfl | rfl | ⟨_, rfl, -⟩ <;> rcases hp with hp | hp <;> cases hp
  · intro offset hp
    rcases hphase with rfl | rfl | ⟨n, rfl, ho⟩ <;> cases hp
    exact ho
  · intro s' offset hne hs'
    exact absurd (hi.alone hs (by rw [hs']; rfl)) hne

theorem fits (hannounced : file.Announces content) :
    (dev.world.disk.bytes (stagedAt tmp file)).length ≤ file.size := by
  rw [← hannounced.1]
  exact hi.valid.length_le

/-- A session looks at the partial file, before it takes the lock or just after. -/
theorem look {next : U64 → Phase} (hannounced : file.Announces content)
    (hnext : next = .planned ∨ next = .ready ∧ dev.lock = none) :
    Inv tmp file content
      (dev.perform h s (partialSize tmp file.path file.sha256 file.size) next) := by
  refine Inv.perform (wp_mono (partialSize_keeps (hi.reach.direct file) (hi.fits hannounced))
    ?_ fun _ w' hdisk => hi.enter_ended hdisk)
  rintro offset w' ⟨hdisk, hle⟩
  refine hi.enter_same hdisk ?_ ?_ ?_
  · intro hholds
    rcases hnext with rfl | ⟨rfl, hfree⟩
    · cases hholds
    · exact .inl hfree
  · intro offset' hphase
    rcases hnext with rfl | ⟨rfl, -⟩ <;> rcases hphase with hphase | hphase <;> cases hphase
    all_goals exact hle
  · intro offset' hphase
    rcases hnext with rfl | ⟨rfl, -⟩ <;> cases hphase

theorem ensure {offset : U64} (hs : dev.sessions s = .ready offset) (hg : Guarded dev (.ensure s)) :
    Inv tmp file content (dev.perform h s (ensurePartialFile (partialOf tmp file) offset)
      fun _ => .receiving offset) := by
  have hheld : (dev.sessions s).holds = true := by rw [hs]; rfl
  refine Inv.perform (wp_mono
    (ensurePartialFile_covered hi.reach hi.valid (hi.covered (.inr hs))) ?_ ?_)
  · rintro _ w' ⟨hreach, ho⟩
    refine hi.enter_held hheld hreach ?_ (.inr (.inr ⟨_, rfl, ho⟩)) ?_
    · rw [ho.bytes]
      exact List.take_prefix _ _
    · intro s' offset' hne hs'
      rw [ho.bytes, List.length_take, min_eq_left ho.1]
      exact hg offset hs s' offset' hs'
  · rintro _ w' ⟨hreach, hbytes⟩
    refine hi.enter_held hheld hreach ?_ (.inl rfl) ?_ <;> rw [hbytes]
    · exact hi.valid
    · exact fun _ hs' => hi.covered (.inl hs')

theorem chunk {text : String} {offset count : Nat} (hannounced : file.Announces content)
    (hs : dev.sessions s = .receiving offset) (hfits : offset + count ≤ file.size) :
    Inv tmp file content (dev.perform h s (context text
      (writeAt (stagedAt tmp file) offset ((content.val.drop offset).take count)))
      fun _ => .receiving (offset + count)) := by
  have hheld : (dev.sessions s).holds = true := by rw [hs]; rfl
  have ho := hi.opened hs
  have hbefore : ∀ {s' offset'}, dev.sessions s' = .planned offset' → offset'.val ≤ offset := by
    intro s' offset' hs'
    have := hi.covered (.inl hs')
    rwa [ho.bytes, List.length_take, min_eq_left ho.1] at this
  refine Inv.perform (wp_mono
    (writeAt_open hi.reach ho (by rw [← hannounced.1] at hfits; exact hfits)) ?_ ?_)
  · rintro _ w' ⟨hreach, ho'⟩
    refine hi.enter_held hheld hreach ?_ (.inr (.inr ⟨_, rfl, ho'⟩)) ?_
    · rw [ho'.bytes]
      exact List.take_prefix _ _
    · intro s' offset' _ hs'
      rw [ho'.bytes, List.length_take, min_eq_left ho'.1]
      exact (hbefore hs').trans (Nat.le_add_right _ _)
  · rintro _ w' ⟨hreach, n, hle, hn, hbytes⟩
    refine hi.enter_held hheld hreach ?_ (.inl rfl) ?_ <;> rw [hbytes]
    · exact List.take_prefix _ _
    · intro s' offset' _ hs'
      rw [List.length_take, min_eq_left hn]
      exact (hbefore hs').trans hle

theorem verify (hannounced : file.Announces content) (hs : dev.sessions s = .receiving file.size) :
    Inv tmp file content
      (dev.perform h s (verifyPartial (partialOf tmp file) file) fun _ => .verified) := by
  have hheld : (dev.sessions s).holds = true := by rw [hs]; rfl
  refine Inv.perform (wp_mono (verifyPartial_open hi.reach (hi.opened hs) hannounced) ?_
    fun _ w' hdisk => hi.enter_ended hdisk)
  intro _ w' hdisk
  refine hi.enter_held hheld ?_ ?_ (.inr (.inl rfl)) ?_ <;> rw [hdisk]
  · exact hi.reach
  · exact hi.valid
  · exact fun _ hs' => hi.covered (.inl hs')

theorem install (hs : dev.sessions s = .verified) (hg : Guarded dev (.install s)) :
    Inv tmp file content (dev.perform h s (unlink (partialOf tmp file)) fun _ => .ended) := by
  have hheld : (dev.sessions s).holds = true := by rw [hs]; rfl
  refine Inv.perform (wp_conseq (unlink_spec (hi.reach.direct file)) ?_)
  rintro r w' (⟨-, -, hdid⟩ | ⟨_, -, hsame, -⟩)
  · have hnone : w'.disk.bytes (stagedAt tmp file) = [] := by
      have hget : w'.disk.get (stagedAt tmp file) = none := hdid.sets.at
      simp [Disk.bytes, hget]
    refine hi.enter_held hheld ?_ ?_ (.inl rfl) ?_
    · exact hi.reach.grown
        (show Grown {stagedAt tmp file} [] 0 dev.world.disk w'.disk from .of_sets hdid.sets rfl)
    · rw [hnone]
      exact List.nil_prefix
    · intro s' offset' _ hs'
      rw [hg s' offset' hs']
      exact Nat.zero_le _
  · exact hi.enter_ended hsame.disk

/-- A guarded event keeps the invariant. -/
theorem act {e : Event} (hannounced : file.Announces content) (hg : Guarded dev e)
    (hact : dev.act h tmp file content e = some dev') :
    Inv tmp file content dev' := by
  cases e with
  | plan s =>
      simp only [Device.act, Option.ite_none_right_eq_some, Option.some.injEq] at hact
      obtain ⟨-, rfl⟩ := hact
      exact hi.look hannounced (.inl rfl)
  | acquire s =>
      simp only [Device.act] at hact
      split at hact
      · rename_i offset hs hfree
        cases hact
        refine hi.enter_same rfl (fun _ => .inl hfree) ?_ ?_
        · intro offset' hphase
          rcases hphase with hphase | hphase <;> cases hphase
          exact hi.covered (.inl hs)
        · intro offset' hphase
          cases hphase
      · cases hact
  | offer s =>
      simp only [Device.act, Option.ite_none_right_eq_some, Option.some.injEq] at hact
      obtain ⟨⟨-, hfree⟩, rfl⟩ := hact
      exact hi.look hannounced (.inr ⟨rfl, hfree⟩)
  | ensure s =>
      simp only [Device.act] at hact
      split at hact
      · rename_i offset hs
        cases hact
        exact hi.ensure hs hg
      · cases hact
  | chunk s count =>
      simp only [Device.act] at hact
      split at hact
      · rename_i offset hs
        simp only [Option.ite_none_right_eq_some, Option.some.injEq] at hact
        obtain ⟨⟨-, hfits⟩, rfl⟩ := hact
        exact hi.chunk hannounced hs hfits
      · cases hact
  | verify s =>
      simp only [Device.act, Option.ite_none_right_eq_some, Option.some.injEq] at hact
      obtain ⟨hs, rfl⟩ := hact
      exact hi.verify hannounced hs
  | install s =>
      simp only [Device.act, Option.ite_none_right_eq_some, Option.some.injEq] at hact
      obtain ⟨hs, rfl⟩ := hact
      exact hi.install hs hg
  | fail s =>
      cases hact
      exact hi.enter_ended rfl

theorem elsewhere (hreach : Reachable w.disk tmp)
    (hsame : w.disk.get (stagedAt tmp file) = dev.world.disk.get (stagedAt tmp file)) :
    Inv tmp file content { dev with world := w } := by
  have hbytes := Disk.bytes_congr hsame
  refine ⟨hreach, ?_, hi.lock, ?_, fun hs => (hi.opened hs).congr hsame⟩
  · show w.disk.bytes _ <+: _
    rw [hbytes]
    exact hi.valid
  · intro s offset hs
    show offset.val ≤ (w.disk.bytes _).length
    rw [hbytes]
    exact hi.covered hs

end Inv

theorem Run.inv {start : Device} (hf : Fresh tmp file content start)
    (hannounced : file.Announces content) (hrun : Run h tmp file content Guarded start dev) :
    Inv tmp file content dev := by
  induction hrun with
  | start => exact hf.inv
  | act e _ hg hact ih => exact ih.act hannounced hg hact
  | elsewhere w _ hreach hsame ih => exact ih.elsewhere hreach hsame

/-- What a session can rely on: once it holds the lock, the offset it announced is covered by
the beginning of the content, and a file it has received passes. -/
structure Safe (h : Host) (tmp : PathBuf) (file : TransferFile) (content : Content) (dev : Device) :
    Prop where
  covered : ∀ {s offset}, dev.sessions s = .ready offset →
    offset.val ≤ (dev.world.disk.bytes (stagedAt tmp file)).length
      ∧ (dev.world.disk.bytes (stagedAt tmp file)).take offset = content.val.take offset
  passes : ∀ {s}, dev.sessions s = .receiving file.size →
    Smooth h dev.world.disk (partialOf tmp file) →
    (∀ {c m t}, dev.world.disk.get (stagedAt tmp file) = some (.file c m t) → h.canRead m = true) →
    ∃ w, verifyPartial (partialOf tmp file) file h dev.world = .ok () w

theorem Inv.safe (hi : Inv tmp file content dev) (hannounced : file.Announces content) :
    Safe h tmp file content dev where
  covered := by
    intro s offset hs
    have hle := hi.covered (.inr hs)
    obtain ⟨rest, hrest⟩ := hi.valid
    refine ⟨hle, ?_⟩
    rw [← hrest, List.take_append_of_le_length hle]
  passes := by
    intro s hs hsmooth hread
    obtain ⟨m, t, hget⟩ := (hi.opened hs).whole hannounced
    cases hrun : verifyPartial (partialOf tmp file) file h dev.world with
    | ok _ w => exact ⟨w, rfl⟩
    | error e w =>
        have hfailed := wp_error (verifyPartial_spec (hi.reach.direct file) hget) hrun
        exact absurd ⟨hsmooth, hread hget, hannounced⟩ hfailed.2

end Device

/-! ## Schedules with two downloads -/

namespace Device

section Acts

variable [Crypto] {h : Host} {tmp : PathBuf} {file : TransferFile} {content : Content}
  {G : Device → Event → Prop} {start dev' : Device}

/-- Events one after the other. -/
def acts (h : Host) (tmp : PathBuf) (file : TransferFile) (content : Content) (dev : Device) :
    List Event → Option Device :=
  List.foldlM (act h tmp file content) dev

theorem Run.acts {events : List Event} (hall : ∀ e ∈ events, ∀ dev, G dev e) : ∀ {dev : Device},
    Run h tmp file content G start dev → dev.acts h tmp file content events = some dev' →
    Run h tmp file content G start dev' := by
  induction events with
  | nil =>
      intro dev hrun hacts
      cases hacts
      exact hrun
  | cons e events ih =>
      intro dev hrun hacts
      obtain ⟨next, hact, hrest⟩ := Option.bind_eq_some_iff.mp hacts
      exact ih (fun e' he' => hall e' (List.mem_cons_of_mem _ he'))
        (hrun.act e (hall e List.mem_cons_self dev) hact) hrest

end Acts

theorem three_bytes_fit : ([1, 2, 3] : List Byte).length < 2 ^ 64 := by decide

def threeBytes : Content := ⟨[1, 2, 3], three_bytes_fit⟩

def threeFile [Crypto] : TransferFile := ⟨['f'], sha256Hex threeBytes.val, 3, 0⟩

/-- A device on which an earlier transfer left the first of the three bytes. -/
def leftover : Device where
  world :=
    let _ := Crypto.plain
    ⟨Disk.bare.put [] (partialName ['f'] threeFile.sha256) (.file ⟨[1], by decide⟩ 0o644 0)
      (by decide +kernel), 0, []⟩
  lock := none
  sessions := fun _ => .idle

theorem leftover_fresh : let _ := Crypto.plain; Fresh [] threeFile threeBytes leftover := by
  intro _
  refine ⟨fun _ => rfl, ⟨by simp, ?_⟩, by decide +kernel⟩
  intro init hi hlink
  cases List.prefix_nil.mp hi
  obtain ⟨target, hget⟩ := hlink
  have hroot : leftover.world.disk.get (names []) = some (.dir 0o755) := by decide +kernel
  rw [hroot] at hget
  cases hget

theorem threeFile_announces [Crypto] : threeFile.Announces threeBytes := ⟨rfl, rfl⟩

/-- In every run in which no session opens the partial file below an offset that another has
planned, nor installs it while another has planned to resume it, every session finds what it
announced. -/
theorem guarded_run_safe [Crypto] {h : Host} {tmp : PathBuf} {file : TransferFile}
    {content : Content} {start dev : Device} (hf : Fresh tmp file content start)
    (hannounced : file.Announces content) (hrun : Run h tmp file content Guarded start dev) :
    Safe h tmp file content dev :=
  (hrun.inv hf hannounced).safe hannounced

/-- Two downloads announce the byte that is there, and the second receives the rest. -/
theorem guarded_run_safe_leftover :
    let _ := Crypto.plain
    ∃ dev, Run .quiet [] threeFile threeBytes Guarded leftover dev
      ∧ dev.sessions 1 = .planned 1 ∧ dev.sessions 2 = .receiving 3
      ∧ Safe .quiet [] threeFile threeBytes dev := by
  intro _
  have hfacts : (leftover.acts .quiet [] threeFile threeBytes [.plan 1, .plan 2, .acquire 2]).any
      (fun ready => ready.sessions 2 = .ready 1
        ∧ ready.world.disk.bytes (stagedAt [] threeFile) = [1]
        ∧ (ready.acts .quiet [] threeFile threeBytes [.ensure 2, .chunk 2 2]).any
          fun dev => dev.sessions 1 = .planned 1 ∧ dev.sessions 2 = .receiving 3) = true := by
    decide +kernel
  simp only [Option.any_eq_true, decide_eq_true_eq] at hfacts
  obtain ⟨ready, hready, hsecond, hbytes, dev, hdev, hphases⟩ := hfacts
  have hrun : Run .quiet [] threeFile threeBytes Guarded leftover ready :=
    Run.start.acts (by simp [Guarded]) hready
  -- Both have announced what is there, one byte.
  have hguard : Guarded ready (.ensure 2) := by
    intro offset hs s' offset' hs'
    cases hsecond.symm.trans hs
    have hcovered := (hrun.inv leftover_fresh threeFile_announces).covered (.inl hs')
    rw [hbytes] at hcovered
    exact hcovered
  obtain ⟨opened, hopened, hrest⟩ := Option.bind_eq_some_iff.mp hdev
  have hrun' : Run .quiet [] threeFile threeBytes Guarded leftover dev :=
    (hrun.act _ hguard hopened).acts (by simp [Guarded]) hrest
  exact ⟨dev, hrun', hphases.1, hphases.2,
    guarded_run_safe leftover_fresh threeFile_announces hrun'⟩

/-- Two downloads have announced the byte that is there.  One of them completes the file and
installs it: the other opens an empty file at its offset, and what it receives does not pass. -/
theorem resume_lost_after_install :
    let _ := Crypto.plain
    Fresh [] threeFile threeBytes leftover ∧ threeFile.Announces threeBytes
      ∧ ∃ ready received, Run .quiet [] threeFile threeBytes (fun _ _ => True) leftover ready
        ∧ ready.sessions 1 = .ready 1 ∧ ready.world.disk.bytes (stagedAt [] threeFile) = []
        ∧ Run .quiet [] threeFile threeBytes (fun _ _ => True) ready received
        ∧ received.sessions 1 = .receiving 3
        ∧ ∃ w, verifyPartial (partialOf [] threeFile) threeFile .quiet received.world
          = .error (.bail "transfer partial hash does not match its manifest for f") w := by
  intro _
  have hfacts : (leftover.acts .quiet [] threeFile threeBytes
      [.plan 1, .plan 2, .acquire 2, .ensure 2, .chunk 2 2, .verify 2, .install 2, .acquire 1]).any
      (fun ready => ready.sessions 1 = .ready 1
        ∧ ready.world.disk.bytes (stagedAt [] threeFile) = []
        ∧ (ready.acts .quiet [] threeFile threeBytes [.ensure 1, .chunk 1 2]).any fun received =>
          received.sessions 1 = .receiving 3
            ∧ (verifyPartial (partialOf [] threeFile) threeFile).failure .quiet received.world
              = some (.bail "transfer partial hash does not match its manifest for f")) = true := by
    decide +kernel
  simp only [Option.any_eq_true, decide_eq_true_eq] at hfacts
  obtain ⟨ready, hready, hfirst, hbytes, received, hreceived, hphase, hfailed⟩ := hfacts
  refine ⟨leftover_fresh, threeFile_announces, ready, received,
    Run.start.acts (fun _ _ _ => trivial) hready, hfirst, hbytes,
    Run.start.acts (fun _ _ _ => trivial) hreceived, hphase, Prog.failure_eq_some.mp hfailed⟩

end Device

end Syncbox
