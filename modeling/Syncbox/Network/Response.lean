/-
# `Syncbox.Network.Response` — the files that are sent

`build_transfer_files` of `src/network/transfer.rs`: for each path that was asked for and is a file,
what will be sent, and from which offset.  An offset comes from the list of resumes, which the
peer chose; the search in that list goes by halves when both lists are long and this one is
sorted.

The list of resumes was checked to name no path twice, so there is one answer however it is
searched and in whatever order it came (`findResume_eq_some`), and the files are the manifest's
with the offsets of the resumes that match (`buildTransferFiles_spec`).
-/
import Syncbox.Network.Transfer

namespace Syncbox

open Rust

/-! ## The resume for a path -/

section Find

variable {paths : List Str} {resumes resumes' : List TransferFile} {path : Str}

theorem find_eq_some (hdistinct : (resumes.map TransferFile.path).Nodup) {resume : TransferFile} :
    (resumes.find? fun resume => resume.path = path) = some resume
      ↔ resume ∈ resumes ∧ resume.path = path := by
  have hfound : ∀ {other}, (resumes.find? fun resume => resume.path = path) = some other →
      other ∈ resumes ∧ other.path = path := by
    intro other hfind
    have hpath := List.find?_some hfind
    exact ⟨List.mem_of_find?_eq_some hfind, of_decide_eq_true hpath⟩
  refine ⟨hfound, ?_⟩
  rintro ⟨hmem, hpath⟩
  cases hfind : resumes.find? fun resume => resume.path = path with
  | none =>
      have hnot := List.find?_eq_none.mp hfind resume hmem
      exact absurd (decide_eq_true hpath) hnot
  | some other =>
      obtain ⟨hother, hpath'⟩ := hfound hfind
      rw [List.inj_on_of_nodup_map hdistinct hother hmem (hpath'.trans hpath.symm)]

/-- By halves or from the front, the same resume is found. -/
theorem binarySearch_eq_find (hdistinct : (resumes.map TransferFile.path).Nodup)
    (hsorted : (resumes.map TransferFile.path).Pairwise (· ≤ ·)) (path : Str) :
    binarySearch resumes path = resumes.find? fun resume => resume.path = path := by
  have hstrict : (resumes.map TransferFile.path).Pairwise (· < ·) :=
    hsorted.imp₂ (fun _ _ hle hne => lt_of_le_of_ne hle hne) hdistinct
  have hsearch : Sorting.binarySearch TransferFile.path resumes path
      = resumes.findIdx? fun resume => resume.path = path :=
    Sorting.binarySearch_eq_findIdx? (fun _ => decide_eq_true_iff) hstrict
  rw [binarySearch, hsearch, List.find?_eq_bind_findIdx?_getElem?]

theorem findResume_eq_some (hdistinct : (resumes.map TransferFile.path).Nodup) {resume : TransferFile} :
    findResume paths resumes path = some resume ↔ resume ∈ resumes ∧ resume.path = path := by
  rw [← find_eq_some hdistinct]
  unfold findResume
  split
  · rename_i hlong
    rw [binarySearch_eq_find hdistinct hlong.2.2]
  · rfl

end Find

/-! ## The files -/

section Files

variable {manifest : Manifest} {paths : List Str} {resumes resumes' : List TransferFile}

/-- The offset is that of the resume for the same file, and zero without one. -/
def Resumes (resumes : List TransferFile) (file : TransferFile) : Prop :=
  (∀ resume ∈ resumes, resume.Answers file → file.offset = resume.offset)
    ∧ ((∀ resume ∈ resumes, ¬ resume.Answers file) → file.offset = 0)

theorem TransferFile.Answers.eq {file file' : TransferFile} (h : file'.Answers file)
    (hoffset : file'.offset = file.offset) : file' = file := by
  obtain ⟨path, sha256, size, offset⟩ := file
  obtain ⟨path', sha256', size', offset'⟩ := file'
  obtain ⟨hpath, hsha256, hsize⟩ := h
  rw [TransferFile.mk.injEq]
  exact ⟨hpath, hsha256, hsize, hoffset⟩

theorem Resumes.offset_eq {file file' : TransferFile} (h : Resumes resumes file)
    (h' : Resumes resumes file') (heq : file'.Answers file) : file'.offset = file.offset := by
  have hanswers : ∀ resume : TransferFile, resume.Answers file' ↔ resume.Answers file := by
    intro resume
    simp only [TransferFile.Answers, heq.1, heq.2.1, heq.2.2]
  by_cases hsome : ∃ resume ∈ resumes, resume.Answers file
  · obtain ⟨resume, hmem, hresume⟩ := hsome
    rw [h.1 resume hmem hresume, h'.1 resume hmem ((hanswers resume).mpr hresume)]
  · have hnone : ∀ resume ∈ resumes, ¬ resume.Answers file := fun resume hmem hresume =>
      hsome ⟨resume, hmem, hresume⟩
    rw [h.2 hnone, h'.2 fun resume hmem hresume => hnone resume hmem ((hanswers resume).mp hresume)]

theorem transferFileFor_resumes (hresumes : Shaped resumes) {path : Str} {file : TransferFile}
    (hfile : transferFileFor manifest paths resumes path = some file) : Resumes resumes file := by
  obtain ⟨entry, hentry, heq⟩ := Option.map_eq_some_iff.mp hfile
  let matching := (findResume paths resumes path).filter fun resume =>
    resume.sha256 = entry.sha256 && resume.size = entry.size
  change (⟨path, entry.sha256, entry.size, matching.elim 0 fun resume => min resume.offset entry.size⟩ :
    TransferFile) = file at heq
  subst heq
  have hmatching : ∀ resume, matching = some resume ↔ (resume ∈ resumes ∧ resume.path = path)
      ∧ resume.sha256 = entry.sha256 ∧ resume.size = entry.size := by
    intro resume
    rw [Option.filter_eq_some_iff, findResume_eq_some hresumes.distinct, Bool.and_eq_true,
      decide_eq_true_iff, decide_eq_true_iff]
  constructor
  · intro resume hmem hanswers
    rw [(hmatching resume).mpr ⟨⟨hmem, hanswers.1⟩, hanswers.2⟩]
    have hoffset := (hresumes.each resume hmem).offset
    rw [hanswers.2.2] at hoffset
    exact min_eq_left hoffset
  · intro hnone
    cases hfound : matching with
    | none => rfl
    | some resume =>
        obtain ⟨⟨hmem, hpath⟩, hsame⟩ := (hmatching resume).mp hfound
        exact absurd ⟨hpath, hsame⟩ (hnone resume hmem)

theorem transferFileFor_eq_some_iff (hresumes : Shaped resumes) {path : Str} {file : TransferFile} :
    transferFileFor manifest paths resumes path = some file
      ↔ file.path = path ∧ file.Of manifest ∧ Resumes resumes file := by
  constructor
  · intro hfile
    obtain ⟨hpath, hof, -⟩ := transferFileFor_eq_some hfile
    exact ⟨hpath, hof, transferFileFor_resumes hresumes hfile⟩
  · rintro ⟨rfl, ⟨entry, hentry, hsha256, hsize⟩, hoffset⟩
    have hsome : ∃ file', transferFileFor manifest paths resumes file.path = some file' :=
      ⟨_, Option.map_eq_some_iff.mpr ⟨entry, hentry, rfl⟩⟩
    obtain ⟨file', hfile'⟩ := hsome
    obtain ⟨hpath, ⟨entry', hentry', hsha256', hsize'⟩, -⟩ := transferFileFor_eq_some hfile'
    rw [hpath, hentry] at hentry'
    cases hentry'
    have hanswers : file'.Answers file := ⟨hpath, hsha256'.symm.trans hsha256, hsize'.symm.trans hsize⟩
    rw [hfile', hanswers.eq (hoffset.offset_eq (transferFileFor_resumes hresumes hfile') hanswers)]

/-- What is sent: in the order of their paths, the files that were asked for, from the offsets of
the resumes that match. -/
structure Sent (manifest : Manifest) (paths : List Str) (resumes files : List TransferFile) : Prop where
  ordered : (files.map TransferFile.path).Pairwise (· < ·)
  mem_iff : ∀ file, file ∈ files ↔ file.path ∈ paths ∧ file.Of manifest ∧ Resumes resumes file

theorem Sent.unique {files files' : List TransferFile} (h : Sent manifest paths resumes files)
    (h' : Sent manifest paths resumes files') : files = files' := by
  let before (left right : TransferFile) : Prop := left.path < right.path
  have : Std.Irrefl before := ⟨fun _ => lt_irrefl _⟩
  have : Std.Antisymm before := ⟨fun _ _ hlt hgt => absurd hgt (lt_asymm hlt)⟩
  refine List.Pairwise.eq_of_mem_iff (r := before) (List.pairwise_map.mp h.ordered)
    (List.pairwise_map.mp h'.ordered) ?_
  intro file
  rw [h.mem_iff, h'.mem_iff]

variable (manifest) in
theorem buildTransferFiles_sent (hpaths : Listed paths) (hresumes : Shaped resumes) :
    ∃ files, buildTransferFiles manifest paths resumes = .ok files
      ∧ Sent manifest paths resumes files := by
  let found := paths.filterMap (transferFileFor manifest paths resumes)
  let sorted := Sorting.sortBy TransferFile.path found
  have hdistinct : (sorted.map TransferFile.path).Nodup := by
    rw [((Sorting.perm_sortBy found).map TransferFile.path).nodup_iff]
    exact hpaths.distinct.sublist (transferFileFor_sublist manifest paths resumes paths)
  have hordered : (sorted.map TransferFile.path).Pairwise (· < ·) :=
    (Sorting.sorted_sortBy found).imp₂ (fun _ _ hle hne => lt_of_le_of_ne hle hne) hdistinct
  -- no path comes twice, so nothing is dropped
  have hdedup : (sorted.destutter fun left right => left.path ≠ right.path) = sorted :=
    List.destutter_of_isChain _ _ (List.pairwise_map.mp hdistinct).isChain
  have hok : buildTransferFiles manifest paths resumes
      = .ok (sorted.destutter fun left right => left.path ≠ right.path) := by
    simp only [buildTransferFiles, Check.andThen_eq_ok]
    exact ⟨validatePathList_eq_ok.mpr hpaths, validateTransferFileShapes_eq_ok.mpr hresumes, rfl⟩
  refine ⟨sorted, by rw [hok, hdedup], hordered, ?_⟩
  intro file
  rw [(Sorting.perm_sortBy found).mem_iff, List.mem_filterMap]
  constructor
  · rintro ⟨path, hpath, hfor⟩
    obtain ⟨rfl, hrest⟩ := (transferFileFor_eq_some_iff hresumes).mp hfor
    exact ⟨hpath, hrest⟩
  · rintro ⟨hpath, hrest⟩
    exact ⟨file.path, hpath, (transferFileFor_eq_some_iff hresumes).mpr ⟨rfl, hrest⟩⟩

theorem Resumes.perm {file : TransferFile} (hperm : resumes'.Perm resumes) :
    Resumes resumes' file ↔ Resumes resumes file := by
  simp only [Resumes, hperm.mem_iff]

theorem Shaped.perm (hresumes : Shaped resumes) (hperm : resumes'.Perm resumes) : Shaped resumes' where
  count := hperm.length_eq ▸ hresumes.count
  each file hfile := hresumes.each file (hperm.subset hfile)
  distinct := (hperm.map TransferFile.path).nodup_iff.mpr hresumes.distinct

theorem Sent.offered {files : List TransferFile} (h : Sent manifest paths resumes files)
    (hresumes : Shaped resumes) : ∀ file ∈ files, Offered manifest file := by
  intro file hfile
  obtain ⟨-, hof, hoffset⟩ := (h.mem_iff file).mp hfile
  refine ⟨hof, ?_⟩
  by_cases hsome : ∃ resume ∈ resumes, resume.Answers file
  · obtain ⟨resume, hmem, hanswers⟩ := hsome
    rw [hoffset.1 resume hmem hanswers, ← hanswers.2.2]
    exact (hresumes.each resume hmem).offset
  · rw [hoffset.2 fun resume hmem hanswers => hsome ⟨resume, hmem, hanswers⟩]
    exact Nat.zero_le _

theorem Sent.length_le {files : List TransferFile} (h : Sent manifest paths resumes files)
    (hpaths : Listed paths) : files.length ≤ MAX_TRANSFER_FILES := by
  have hsub : (files.map TransferFile.path).Subperm paths := by
    refine List.subperm_of_subset (h.ordered.imp ne_of_lt) ?_
    intro path hpath
    obtain ⟨file, hfile, rfl⟩ := List.mem_map.mp hpath
    exact ((h.mem_iff file).mp hfile).1
  have hlen := hsub.length_le
  rw [List.length_map] at hlen
  exact hlen.trans hpaths.count

/-- The list of files is built exactly when both lists pass their checks.  It then has, in the order
of the paths, one descriptor for each path that was asked for and is a file, from the offset of the
resume that matches; it depends neither on the way of searching nor on the order of the
resumes, and passes the check of the receiver. -/
theorem buildTransferFiles_spec [Crypto] {shareId : ShareId} (hvalid : manifest.Valid shareId) :
    ((∃ files, buildTransferFiles manifest paths resumes = .ok files)
        ↔ validatePathList paths = .ok () ∧ validateTransferFileShapes resumes = .ok ())
      ∧ ∀ {files}, buildTransferFiles manifest paths resumes = .ok files →
        Sent manifest paths resumes files
          ∧ ((resumes.map TransferFile.path).Pairwise (· ≤ ·) →
            ∀ path, binarySearch resumes path = resumes.find? fun resume => resume.path = path)
          ∧ (∀ {resumes'}, resumes'.Perm resumes →
            buildTransferFiles manifest paths resumes' = .ok files)
          ∧ validateTransferFiles files manifest = .ok () := by
  have hchecked : ∀ {files}, buildTransferFiles manifest paths resumes = .ok files →
      Listed paths ∧ Shaped resumes := by
    intro files hok
    simp only [buildTransferFiles, Check.andThen_eq_ok, validatePathList_eq_ok,
      validateTransferFileShapes_eq_ok] at hok
    exact ⟨hok.1, hok.2.1⟩
  rw [validatePathList_eq_ok, validateTransferFileShapes_eq_ok]
  refine ⟨⟨?_, ?_⟩, ?_⟩
  · rintro ⟨files, hok⟩
    exact hchecked hok
  · rintro ⟨hpaths, hresumes⟩
    obtain ⟨files, hok, -⟩ := buildTransferFiles_sent manifest hpaths hresumes
    exact ⟨files, hok⟩
  · intro files hok
    obtain ⟨hpaths, hresumes⟩ := hchecked hok
    obtain ⟨files', hok', hsent⟩ := buildTransferFiles_sent manifest hpaths hresumes
    obtain rfl := Except.ok.inj (hok.symm.trans hok')
    refine ⟨hsent, binarySearch_eq_find hresumes.distinct, ?_, ?_⟩
    · intro resumes' hperm
      obtain ⟨files', hok', hsent'⟩ :=
        buildTransferFiles_sent manifest hpaths (hresumes.perm hperm)
      have hsame : Sent manifest paths resumes files' :=
        ⟨hsent'.ordered, fun file => by rw [hsent'.mem_iff, Resumes.perm hperm]⟩
      rw [hok', hsent.unique hsame]
    · have hoffered := hsent.offered hresumes
      refine validateTransferFiles_eq_ok.mpr ⟨?_, fun file hfile => (hoffered file hfile).1⟩
      exact shaped_of_offered hvalid (hsent.length_le hpaths) (hsent.ordered.imp ne_of_lt) hoffered

end Files

/-- A file and a path that is none, with resumes for both. -/
theorem buildTransferFiles_spec_oneFile :
    let _ := Crypto.plain
    let shareId : ShareId := ⟨List.replicate 32 0, rfl⟩
    let manifest := Manifest.oneFile 1 2
    let paths := ["b".toList, "a".toList]
    let file : TransferFile := ⟨"a".toList, List.replicate 64 '0', 3, 2⟩
    let other : TransferFile := ⟨"b".toList, List.replicate 64 '0', 3, 1⟩
    manifest.Valid shareId ∧ buildTransferFiles manifest paths [file, other] = .ok [file]
      ∧ Sent manifest paths [file, other] [file]
      ∧ binarySearch [file, other] "b".toList = some other
      ∧ buildTransferFiles manifest paths [other, file] = .ok [file]
      ∧ validateTransferFiles [file] manifest = .ok () := by
  let _ := Crypto.plain
  intro _ shareId manifest paths file other
  have hvalid : manifest.Valid shareId := by decide +kernel
  have hok : buildTransferFiles manifest paths [file, other] = .ok [file] := by decide +kernel
  obtain ⟨hsent, hsearch, hperm, hchecked⟩ := (buildTransferFiles_spec hvalid).2 hok
  exact ⟨hvalid, hok, hsent, hsearch (by decide) "b".toList, hperm (List.Perm.swap _ _ _), hchecked⟩

end Syncbox
