/-
# `Syncbox.Storage.Cells` — the state files of a share are cells

`Syncbox.Network.State` keeps the manifest of a share in a cell: a read fails or gives what
the cell holds, and a write that fails has replaced it or has not.  `Syncbox.Storage.Atomic`
has the calls that `src/storage` makes — the temporary file, the rename, the limit of the
reader.  Here the second refines the first.

The two meet in `Shows`: the file on the disk holds the bytes of the value in the cell.  A
read and a write keep this, whatever fails in them (`readJson_refines`,
`atomicWriteJson_refines`), and so does every run of loads and saves of manifests: what it
answers, call by call, is what the cell answers on hosts that say where the calls failed
(`manifest_cell`).  Reasons for failure are not compared.  A file longer than the reader's
limit is, at the cell, a read that fails.
-/
import Syncbox.Network.State
import Syncbox.Storage.State

namespace Syncbox.Storage

open Rust Unix Prog

/-- The disk has in its file what the state has in its cell. -/
structure Shows {α : Type} [Crypto] [Serde α] (dir : Loc) (file : Str) (cell : ShareState → α)
    (w : World) (s : ShareState) : Prop where
  plain : Plain w.disk dir
  holds : Holds w.disk (dir ++ [file]) (stateBytes (cell s))

/-- A host on which every call fails; what of a write was done by then is `written`. -/
def Host.failing (written : Nat) : Host :=
  { Host.quiet with
    fault := fun _ => true
    written := fun _ => written }

section Cell

variable {α : Type} [Crypto] [Serde α] {dir : Loc} {file : Str} {cell : ShareState → α} {path : PathBuf}

theorem readJson_refines {maxBytes : Nat}
    (hround : ∀ a : α, Serde.fromSlice (stateBytes a) = some a)
    (hcalled : ∀ s, cell s.called = cell s) :
    Prog.Refines (Shows dir file cell) (readJson (dir ++ [file]) maxBytes)
      (Syncbox.readJson path cell) := by
  intro h w s hw
  obtain ⟨c, t, hc, hget⟩ := hw.holds
  have hspec : (readJson (dir ++ [file]) maxBytes : Fs α).wp h w
      (fun a w' => a = cell s ∧ w'.disk = w.disk) fun _ w' => w'.disk = w.disk := by
    unfold readJson
    refine wp_seq (wp_both (readBounded_spec hget) readBounded_keeps) ?_ fun _ _ he => he.2
    rintro data w' ⟨⟨rfl, -⟩, hdisk⟩
    rw [hc, hround]
    exact ⟨rfl, hdisk⟩
  have hshows : ∀ {w' : World}, w'.disk = w.disk → Shows dir file cell w' s.called := by
    intro w' hdisk
    refine ⟨hdisk ▸ hw.plain, ?_⟩
    rw [hdisk, hcalled]
    exact hw.holds
  cases hrun : (readJson (dir ++ [file]) maxBytes : Fs α) h w with
  | ok a w' =>
      obtain ⟨rfl, hdisk⟩ := wp_ok hspec hrun
      exact ⟨.quiet, .ok (hshows hdisk)⟩
  | error e w' =>
      have hdisk := wp_error hspec hrun
      exact ⟨Host.failing 0, .error (hshows hdisk)⟩

theorem Shows.attempted {w w' : World} {s : ShareState} {h : Host} {d : Disk} {bytes : List Byte}
    (hw : Shows dir file cell w s) (hs : Secured h dir w.disk d)
    (ha : Attempted dir file bytes d w'.disk) :
    Plain w'.disk dir ∧ (Holds w'.disk (dir ++ [file]) (stateBytes (cell s))
      ∨ Holds w'.disk (dir ++ [file]) bytes) := by
  refine ⟨(hs.plain hw.plain).congr fun hi => ha.off fun name => prefix_ne_child hi, ?_⟩
  rcases ha.either with hold | hnew
  · obtain ⟨c, t, hc, hget⟩ := hw.holds
    refine .inl ⟨c, t, hc, hold.trans ?_⟩
    rw [hs.below fun hi => prefix_ne_child hi rfl, hget]
  · exact .inr hnew

theorem atomicWriteJson_refines {put : ShareState → ShareState} {value : α}
    (hfile : isFileName file = true) (hcalled : ∀ s, cell s.called = cell s)
    (hput : ∀ s, cell (put s) = value) :
    Prog.Refines (Shows dir file cell) (atomicWriteJson (dir ++ [file]) value)
      (Syncbox.atomicWriteJson path put) := by
  intro h w s hw
  have hnew : ∀ {w' : World}, Plain w'.disk dir →
      Holds w'.disk (dir ++ [file]) (stateBytes value) → Shows dir file cell w' (put s).called := by
    intro w' hplain hholds
    refine ⟨hplain, ?_⟩
    rw [hcalled, hput]
    exact hholds
  have hold : ∀ {w' : World}, Plain w'.disk dir →
      Holds w'.disk (dir ++ [file]) (stateBytes (cell s)) → Shows dir file cell w' s.called := by
    intro w' hplain hholds
    refine ⟨hplain, ?_⟩
    rw [hcalled]
    exact hholds
  cases hrun : atomicWriteJson (dir ++ [file]) value h w with
  | ok u w' =>
      obtain ⟨d, hs, -, -, hr⟩ := wp_ok (atomicWriteJson_spec hw.plain hfile) hrun
      have hplain := (hs.plain hw.plain).congr fun hi => hr.off (prefix_ne_child hi)
      exact ⟨.quiet, .ok (hnew hplain hr.holds)⟩
  | error e w' =>
      obtain ⟨⟨d, hs, ha⟩, -⟩ := wp_error (atomicWriteJson_spec hw.plain hfile) hrun
      obtain ⟨hplain, hholds | hholds⟩ := hw.attempted hs ha
      · exact ⟨Host.failing 0, .error (hold hplain hholds)⟩
      · exact ⟨Host.failing 1, .error (hnew hplain hholds)⟩

end Cell

/-! ## Runs -/

/-- What the daemon does with the manifest file of a share. -/
inductive Access where
  | load
  | save (manifest : Manifest)

namespace Access

variable [Crypto]

def onDisk [Serde Manifest] (paths : DataPaths) (shareId : ShareId) : Access → Fs (Option Manifest)
  | load => do
      let manifest ← paths.loadManifest shareId
      pure (some manifest)
  | save manifest => do
      paths.saveManifest manifest
      pure none

def onCell (share : ActiveShare) : Access → App (Option Manifest)
  | load => do
      let manifest ← loadManifest share
      pure (some manifest)
  | save manifest => do
      storeManifest share manifest
      pure none

/-- A manifest that is saved is one of the share. -/
def Of (shareId : ShareId) : Access → Prop
  | load => True
  | save manifest => manifest.shareId = shareId

end Access

section Manifest

variable [Crypto] [Serde Manifest] {paths : DataPaths} {share : ActiveShare}

/-- The manifest file of the share holds the manifest of the state. -/
abbrev ShowsManifest (paths : DataPaths) (share : ActiveShare) : World → ShareState → Prop :=
  Shows (paths.shareDir share.shareId) "manifest.json".toList ShareState.manifestFile

theorem Access.refines (hround : ∀ m : Manifest, Serde.fromSlice (stateBytes m) = some m)
    {a : Access} (ha : a.Of share.shareId) :
    Prog.Refines (ShowsManifest paths share) (a.onDisk paths share.shareId) (a.onCell share) := by
  cases a with
  | load =>
      have hread : Prog.Refines (ShowsManifest paths share) (paths.loadManifest share.shareId)
          (loadManifest share) := by
        refine (readJson_refines hround fun _ => rfl).bind fun m r r' s t hR => ?_
        dsimp only
        cases m.validate share.shareId with
        | ok u => exact .ok hR
        | error e => exact .error hR
      exact hread.bind fun _ _ _ _ _ hR => .ok hR
  | save m =>
      have hid : m.shareId = share.shareId := ha
      have hwrite : Prog.Refines (ShowsManifest paths share) (paths.saveManifest m)
          (storeManifest share m) := by
        refine Prog.Refines.guard (m.validate m.shareId) ?_
        unfold DataPaths.shareManifest DataPaths.sharePath
        rw [hid]
        exact atomicWriteJson_refines (by decide) (fun _ => rfl) fun _ => rfl
      exact hwrite.bind fun _ _ _ _ _ hR => .ok hR

/-- Whatever the hosts do, loads and saves on the disk answer what the cell answers on some
hosts, and leave on the disk what they leave in the cell. -/
theorem manifest_cell (hround : ∀ m : Manifest, Serde.fromSlice (stateBytes m) = some m)
    {calls : List (Host × Access)} (hof : ∀ x ∈ calls, x.2.Of share.shareId) {w : World} {s : ShareState}
    (hw : ShowsManifest paths share w s) :
    ∃ calls' : List (Host × Access), calls'.map Prod.snd = calls.map Prod.snd
      ∧ (Prog.answers (Access.onCell share) calls' s).1
        = (Prog.answers (Access.onDisk paths share.shareId) calls w).1
      ∧ ShowsManifest paths share
        (Prog.answers (Access.onDisk paths share.shareId) calls w).2
        (Prog.answers (Access.onCell share) calls' s).2 :=
  Prog.Refines.answers (fun x hx => Access.refines hround (hof x hx)) hw

end Manifest

end Syncbox.Storage
