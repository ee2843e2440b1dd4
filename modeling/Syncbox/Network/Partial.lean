/-
# `Syncbox.Network.Partial` — partial files

Where a transfer keeps what has arrived.  A partial file is opened at the offset at which
the transfer resumes, and cut or filled to it (`ensurePartialFile_spec`).  The staging
directory may be missing; it is made on the way, so what is left alone is said by `Grown`.

The names of partial files are hashes, and two files of one transfer share a name only if
their keys collide (`partialName_injective`).
-/
import Syncbox.Network.Chunk

namespace Syncbox

open Rust Unix Encode Prog

/-! ## The staging directory -/

/-- What `set_len` makes of the contents of a file. -/
def resized (old : List Byte) (len : Nat) : List Byte :=
  old.take len ++ List.replicate (len - old.length) 0

theorem length_resized (old : List Byte) (len : Nat) : (resized old len).length = len := by
  simp only [resized, List.length_append, List.length_take, List.length_replicate]
  omega

theorem resized_of_length {old : List Byte} {len : Nat} (h : old.length = len) :
    resized old len = old := by
  simp [resized, h, List.take_of_length_le h.le]

/-- The staging directory is there or can be made, and what is made in it can be used. -/
structure Stage (h : Host) (d : Disk) (tmp : Loc) : Prop where
  smooth : Smooth h d tmp
  makeable : Makeable h d tmp
  readable : h.canRead (0o666 &&& ~~~h.umask) = true
  writable : h.canWrite (0o777 &&& ~~~h.umask) = true
  searchable : h.canSearch (0o777 &&& ~~~h.umask) = true

section Stage

variable {h : Host} {w : World} {d d' : Disk} {tmp : Loc} {name : Str}

theorem proper_of_prefix {init : Loc} (hi : init <+: tmp) : init ≠ tmp ++ [name] := by
  rintro rfl
  have := hi.length_le
  simp at this

theorem prefix_of_proper {init : Loc} (hi : init <+: tmp ++ [name]) (hne : init ≠ tmp ++ [name]) :
    init <+: tmp := by
  rcases List.prefix_concat_iff.mp hi with heq | hi
  · exact absurd heq hne
  · exact hi

theorem Stage.smooth_entry (hs : Stage h d tmp) (hname : isFileName name = true) :
    Smooth h d (tmp ++ [name]) := by
  refine ⟨hs.smooth.noFault, ?_, fun {init} hi hne => ?_⟩
  · intro part hpart
    rcases List.mem_append.mp hpart with hpart | hpart
    · exact hs.smooth.named part hpart
    · have hnamed : Named [name] := named_of_isFileName (by simpa using hname)
      exact hnamed part hpart
  · by_cases htmp : init = tmp
    · subst htmp
      exact hs.makeable.get.imp_right fun ⟨mode, hget, _, hsearch⟩ => ⟨mode, hget, hsearch⟩
    · exact hs.smooth.passable (prefix_of_proper hi hne) htmp

theorem Stage.reachable (hs : Stage h d tmp) : ∀ {init}, init <+: tmp → ¬ d.IsLink (names init) := by
  intro init hi hlink
  rw [Named.names fun part hpart => hs.smooth.named part (hi.subset hpart)] at hlink
  obtain ⟨target, htarget⟩ := hlink
  have hget : d.get init = none ∨ ∃ mode, d.get init = some (.dir mode) := by
    by_cases htmp : init = tmp
    · subst htmp
      exact hs.makeable.get.imp_right fun ⟨mode, hget, _⟩ => ⟨mode, hget⟩
    · exact (hs.smooth.passable hi htmp).imp_right fun ⟨mode, hget, _⟩ => ⟨mode, hget⟩
  rw [htarget] at hget
  rcases hget with hnone | ⟨mode, hdir⟩
  · cases hnone
  · cases hdir

theorem Stage.grown {S : Set Loc} {dir : Loc} (hs : Stage h d tmp)
    (hg : Grown S dir (0o777 &&& ~~~h.umask) d d') (hS : ∀ {init}, init <+: tmp → init ∉ S) :
    Stage h d' tmp where
  smooth := hg.smooth hs.smooth hs.searchable fun hi _ => hS hi
  makeable := hs.makeable.grown hg hs.writable hs.searchable hS
  readable := hs.readable
  writable := hs.writable
  searchable := hs.searchable

theorem Makeable.ready {mode : Mode} (hs : Smooth h d (tmp ++ [name])) (hname : isFileName name = true)
    (hget : d.get tmp = some (.dir mode)) (hwrite : h.canWrite mode = true) :
    Ready h d (tmp ++ [name]) :=
  ⟨tmp, name, rfl, hs, by simpa [Disk.writable, hget] using hwrite, hname⟩

theorem previousLength_spec {path : PathBuf} (hd : Direct w.disk path) :
    (previousLength path).wp h w (fun r w' => Same w w'
      ∧ (r = none ∧ w.disk.get (names path) = none
        ∨ ∃ c m t, r = some c.len ∧ w.disk.get (names path) = some (.file c m t)))
      fun _ w' => w'.disk = w.disk ∧ ¬ (Smooth h w.disk path ∧ (w.disk.get (names path) = none
        ∨ ∃ c m t, w.disk.get (names path) = some (.file c m t))) := by
  unfold previousLength
  refine wp_then (lstat_spec hd) fun r w' hlook => ?_
  split
  · exact ⟨hlook.same, .inr ⟨_, _, _, rfl, hlook.ok rfl⟩⟩
  · rename_i node hnode
    refine ⟨hlook.same.disk, ?_⟩
    rintro ⟨-, hnone | ⟨c, m, t, hget⟩⟩
    · rw [hlook.ok rfl] at hnone
      cases hnone
    · rw [hlook.ok rfl] at hget
      cases hget
      exact hnode _ _ _ rfl
  · exact ⟨hlook.same, .inl ⟨rfl, hlook.missing rfl⟩⟩
  · rename_i kind hkind
    exact ⟨hlook.same.disk, fun hgood => hlook.blocked rfl (fun heq => hkind (heq ▸ rfl)) hgood.1⟩

/-- What opening a new partial file leaves. -/
def Opened (h : Host) (tmp : Loc) (d d' : Disk) (loc : Loc) : Prop :=
  (∃ t, d'.get loc = some (.file .empty (0o666 &&& ~~~h.umask) t))
    ∧ Grown {loc} (names tmp) (0o777 &&& ~~~h.umask) d d'

/-- The first attempt fails under `Stage` only when the directory is missing. -/
theorem openNew_spec (hd : Direct w.disk (tmp ++ [name])) (hname : isFileName name = true)
    (hnone : w.disk.get (names (tmp ++ [name])) = none) {E : Error → World → Prop} :
    (openReadWrite (tmp ++ [name]) true : Fs _).wp h w (fun r w' =>
      (r = .ok (names (tmp ++ [name])) ∧ Opened h tmp w.disk w'.disk (names (tmp ++ [name])))
      ∨ ∃ kind, r = .error kind ∧ w'.disk = w.disk
        ∧ (Stage h w.disk tmp → kind = .notFound ∧ w.disk.get tmp = none)) E := by
  have hmissing : Stage h w.disk tmp ∧ w.disk.get tmp = none →
      (openReadWrite (tmp ++ [name]) true : Fs _).wp h w
        (fun r w' => r = .error .notFound ∧ Same w w') E := by
    intro ⟨hstage, hgone⟩
    refine callAt_missing (hstage.smooth_entry hname) (by simp) ?_
    rintro ⟨mode, hmode⟩
    rw [hgone] at hmode
    cases hmode
  refine wp_conseq (wp_and (openReadWrite_new_spec hd) hmissing) ?_
  rintro r w' ⟨⟨rfl, -, t, hdid⟩ | ⟨kind, rfl, hsame, hnot⟩, hgone⟩
  · exact .inl ⟨rfl, ⟨t, hdid.sets.at⟩, .of_sets hdid.sets rfl⟩
  · refine .inr ⟨kind, rfl, hsame.disk, fun hstage => ?_⟩
    rcases hstage.makeable.get with hnone' | ⟨mode, hget, hwrite, -⟩
    · obtain ⟨heq, -⟩ := hgone ⟨hstage, hnone'⟩
      cases heq
      exact ⟨rfl, hnone'⟩
    · exact absurd ⟨Makeable.ready (hstage.smooth_entry hname) hname hget hwrite, hnone⟩ hnot

theorem createDirAll_stage (hd : Direct w.disk tmp) {E : Error → World → Prop} :
    (createDirAll tmp : Fs _).wp h w (fun r w' =>
      Grown ∅ (names tmp) (0o777 &&& ~~~h.umask) w.disk w'.disk
      ∧ (Stage h w.disk tmp ∧ w.disk.get tmp = none → r = .ok ()
        ∧ w'.disk.get tmp = some (.dir (0o777 &&& ~~~h.umask)))) E := by
  refine wp_and (createDirAll_grown hd) fun ⟨hstage, hgone⟩ => ?_
  cases hstage.makeable with
  | there hget _ _ =>
      rw [hgone] at hget
      cases hget
  | missing hnone hname hparent =>
      exact wp_conseq (createDirAll_made hparent hstage.writable hstage.searchable
        hstage.smooth hnone hname) fun r w' hmade => ⟨hmade.1, hmade.2.1⟩

theorem openPartial_new_spec (hd : Direct w.disk (tmp ++ [name])) (hname : isFileName name = true)
    (hnone : w.disk.get (names (tmp ++ [name])) = none) :
    (openPartial (tmp ++ [name]) true).wp h w (fun r w' => r = names (tmp ++ [name])
      ∧ Opened h tmp w.disk w'.disk (names (tmp ++ [name])))
      fun _ w' => Grown ∅ (names tmp) (0o777 &&& ~~~h.umask) w.disk w'.disk
        ∧ ¬ Stage h w.disk tmp := by
  unfold openPartial
  rw [wp_context, wp_bind]
  refine wp_conseq (openNew_spec hd hname hnone) ?_
  rintro r w₁ (⟨rfl, hopened⟩ | ⟨kind, rfl, hdisk₁, hstage₁⟩)
  · exact ⟨rfl, hopened⟩
  by_cases hkind : kind = .notFound
  · subst hkind
    dsimp only
    rw [if_pos rfl, wp_bind, List.dropLast_concat, wp_context]
    have hd₁ : Direct w₁.disk tmp := by
      have := hd.dropLast (by simp)
      rwa [List.dropLast_concat, ← hdisk₁] at this
    refine wp_conseq (createDirAll_stage hd₁) fun r w₂ ⟨hgrown, hmade⟩ => ?_
    rw [hdisk₁] at hgrown hmade
    cases r with
    | error kind =>
        refine ⟨hgrown, fun hstage => ?_⟩
        obtain ⟨heq, -⟩ := hmade ⟨hstage, (hstage₁ hstage).2⟩
        cases heq
    | ok _ =>
        refine wp_conseq (openReadWrite_new_spec
          (hgrown.direct hd fun _ _ => Set.notMem_empty _)) fun r w₃ hr => ?_
        rcases hr with ⟨rfl, -, t, hdid⟩ | ⟨kind, rfl, hsame, hnot⟩
        · exact ⟨rfl, ⟨t, hdid.sets.at⟩,
            (hgrown.mono (Set.empty_subset _) (List.prefix_refl _)).trans (.of_sets hdid.sets rfl)⟩
        · refine ⟨hsame.disk ▸ hgrown, fun hstage => ?_⟩
          obtain ⟨-, hdir⟩ := hmade ⟨hstage, (hstage₁ hstage).2⟩
          have hs := hstage.smooth_entry hname
          have hs₂ := hgrown.smooth hs hstage.searchable fun _ _ => Set.notMem_empty _
          refine hnot ⟨Makeable.ready hs₂ hname hdir hstage.writable, ?_⟩
          rw [hs.named.names] at hnone ⊢
          refine (hgrown.off (Set.notMem_empty _) fun hi => ?_).trans hnone
          rw [hstage.smooth.named.names] at hi
          exact proper_of_prefix hi rfl
  · split
    · rename_i heq
      cases heq
      exact absurd rfl hkind
    · exact ⟨.of_eq hdisk₁, fun hstage => hkind (hstage₁ hstage).1⟩

theorem openPartial_existing_spec {path : PathBuf} (hd : Direct w.disk path) {c : Content} {m : Mode}
    {t : U64} (hget : w.disk.get (names path) = some (.file c m t)) :
    (openPartial path false).wp h w (fun r w' => r = names path ∧ w'.disk = w.disk)
      fun _ w' => w'.disk = w.disk
        ∧ ¬ (Smooth h w.disk path ∧ h.canRead m = true ∧ h.canWrite m = true) := by
  have hlast : ¬ w.disk.IsLink (names path) := by
    rintro ⟨target, htarget⟩
    rw [hget] at htarget
    cases htarget
  unfold openPartial
  rw [wp_context, wp_bind]
  refine wp_conseq (openReadWrite_existing_spec hd hlast) fun r w₁ ⟨hsame, hr⟩ => ?_
  rcases hr with ⟨rfl, -⟩ | ⟨kind, rfl, hnot⟩
  · exact ⟨rfl, hsame.disk⟩
  · have hfail : ¬ (Smooth h w.disk path ∧ h.canRead m = true ∧ h.canWrite m = true) :=
      fun ⟨hs, hread, hwrite⟩ => hnot ⟨hs, c, m, t, hget, hread, hwrite⟩
    split
    · exact ⟨hsame.disk, hfail⟩
    · exact ⟨hsame.disk, hfail⟩

/-- The partial file is absent, or a file that can be read and written. -/
def Usable (h : Host) (d : Disk) (loc : Loc) : Prop :=
  d.get loc = none ∨ ∃ c m t, d.get loc = some (.file c m t) ∧ h.canRead m = true
    ∧ h.canWrite m = true

theorem resize_spec (dir : Loc) {text : String} {file : Loc} {offset previous : U64} {c : Content} {m : Mode}
    {t : U64} (hget : w.disk.get file = some (.file c m t)) (hprevious : previous = c.len) :
    (Prog.when (previous ≠ offset) (context text (setLen file offset))).wp h w
      (fun _ w' => Grown {file} dir (0o777 &&& ~~~h.umask) w.disk w'.disk
        ∧ ∃ c' t', w'.disk.get file = some (.file c' m t') ∧ c'.val = resized c.val offset)
      fun _ w' => w'.disk = w.disk ∧ ¬ ∀ n, h.fault n = false := by
  refine wp_when (fun _ => ?_) fun heq => ?_
  · rw [wp_context]
    refine wp_conseq (setLen_spec hget) fun r w' hr => ?_
    rcases hr with ⟨rfl, c', t', hc', hdid⟩ | ⟨kind, rfl, hsame, hnot⟩
    · exact ⟨.of_sets hdid.sets rfl, c', t', hdid.sets.at, hc'⟩
    · exact ⟨hsame.disk, fun hno => hnot ⟨hno, offset.isLt⟩⟩
  · rw [Decidable.not_not, hprevious] at heq
    refine ⟨.refl _ _ _ _, c, t, hget, (resized_of_length ?_).symm⟩
    rw [← heq]
    rfl

theorem ensurePartialFile_spec {offset : U64} (hd : Direct w.disk (tmp ++ [name]))
    (hname : isFileName name = true) :
    (ensurePartialFile (tmp ++ [name]) offset).wp h w (fun file w' => file = names (tmp ++ [name])
      ∧ Grown {names (tmp ++ [name])} (names tmp) (0o777 &&& ~~~h.umask) w.disk w'.disk
      ∧ ∃ c m t, w'.disk.get (names (tmp ++ [name])) = some (.file c m t)
        ∧ c.val = resized (w.disk.bytes (names (tmp ++ [name]))) offset
        ∧ (m = 0o666 &&& ~~~h.umask ∨ ∃ c₀ t₀,
          w.disk.get (names (tmp ++ [name])) = some (.file c₀ m t₀)))
      fun _ w' => Grown {names (tmp ++ [name])} (names tmp) (0o777 &&& ~~~h.umask) w.disk w'.disk
        ∧ w'.disk.bytes (names (tmp ++ [name])) = w.disk.bytes (names (tmp ++ [name]))
        ∧ ¬ (Stage h w.disk tmp ∧ Usable h w.disk (names (tmp ++ [name]))) := by
  have hentry : ¬ names (tmp ++ [name]) <+: names tmp := by
    rw [names_append, names_cons_name (Disk.isName_of_isFileName hname)]
    exact fun hi => proper_of_prefix hi rfl
  generalize hloc : names (tmp ++ [name]) = loc
  unfold ensurePartialFile
  refine wp_seq (previousLength_spec hd) ?_ ?_
  · rintro previous w₁ ⟨hsame, ⟨rfl, hnone⟩ | ⟨c, m, t, rfl, hget⟩⟩
    · rw [← hsame.disk] at hd hnone
      refine wp_seq (openPartial_new_spec hd hname hnone) ?_ ?_
      · rintro file w₂ ⟨rfl, ⟨t, hget⟩, hgrown⟩
        refine wp_seq (resize_spec (names tmp) hget rfl) ?_ ?_
        · rintro _ w₃ ⟨hgrown', c', t', hget', hc'⟩
          rw [hsame.disk, hloc] at hnone
          rw [hsame.disk] at hgrown
          refine ⟨hloc, hloc ▸ hgrown.trans hgrown', c', _, t', hloc ▸ hget', ?_, .inl rfl⟩
          rw [hc']
          simp [Disk.bytes, hnone, Content.empty]
        · rintro _ w₃ ⟨hdisk, hfault⟩
          rw [hsame.disk, hloc] at hnone
          rw [hsame.disk, ← hdisk] at hgrown
          rw [hloc] at hget
          refine ⟨hloc ▸ hgrown, ?_, fun hgood => hfault hgood.1.smooth.noFault⟩
          simp [hdisk, Disk.bytes, hget, hnone, Content.empty]
      · rw [hsame.disk]
        rintro _ _ ⟨hgrown, hbad⟩
        refine ⟨hgrown.mono (Set.empty_subset _) (List.prefix_refl _),
          Disk.bytes_congr (hgrown.off (Set.notMem_empty _) (hloc ▸ hentry)), fun hgood => hbad hgood.1⟩
    · rw [wp_bind]
      rw [← hsame.disk] at hd hget
      refine wp_mono (openPartial_existing_spec hd hget) ?_ ?_
      · rintro file w₂ ⟨rfl, hdisk₂⟩
        rw [← hdisk₂] at hget
        refine wp_seq (resize_spec (names tmp) hget rfl) ?_ ?_
        · rintro _ w₃ ⟨hgrown, c', t', hget', hc'⟩
          rw [hdisk₂, hsame.disk] at hget hgrown
          rw [hloc] at hget hgrown hget'
          refine ⟨hloc, hgrown, c', m, t', hget', ?_, .inr ⟨c, t, hget⟩⟩
          rw [hc']
          simp [Disk.bytes, hget]
        · rintro _ w₃ ⟨hdisk, hfault⟩
          rw [hdisk₂, hsame.disk] at hdisk
          exact ⟨.of_eq hdisk, by rw [hdisk], fun hgood => hfault hgood.1.smooth.noFault⟩
      · rintro _ w₂ ⟨hdisk, hbad⟩
        rw [hsame.disk] at hbad hget hdisk
        rw [hloc] at hget
        refine ⟨.of_eq hdisk, by rw [hdisk], ?_⟩
        rintro ⟨hstage, hnone | ⟨c', m', t', hget', hmodes⟩⟩
        · rw [hget] at hnone
          cases hnone
        · rw [hget] at hget'
          cases hget'
          exact hbad ⟨hstage.smooth_entry hname, hmodes⟩
  · rintro _ w' ⟨hdisk, hbad⟩
    refine ⟨.of_eq hdisk, by rw [hdisk], ?_⟩
    rintro ⟨hstage, husable⟩
    refine hbad ⟨hstage.smooth_entry hname, hloc ▸ husable.imp_right ?_⟩
    rintro ⟨c, m, t, hget, -⟩
    exact ⟨c, m, t, hget⟩

end Stage

/-! ## Names of partial files -/

section Names

variable [Crypto]

theorem isFileName_partialName (manifestPath sha256 : Str) :
    isFileName (partialName manifestPath sha256) = true := by
  have hhex : ∀ c ∈ sha256Hex (partialKey manifestPath sha256), isLowerHex c = true :=
    List.all_eq_true.mp (sha256Hex_shape _).2
  have hnot : ∀ {c : Char}, isLowerHex c = false → c ∉ "chunk-".toList → c ∉ ".part".toList →
      c ∉ partialName manifestPath sha256 := by
    intro c hc hstart hend hmem
    rcases List.mem_append.mp hmem with hmem | hmem
    rcases List.mem_append.mp hmem with hmem | hmem
    · exact hstart hmem
    · rw [hhex c hmem] at hc
      cases hc
    · exact hend hmem
  have hslash := hnot (c := '/') (by decide) (by decide) (by decide)
  have hnul := hnot (c := '\x00') (by decide) (by decide) (by decide)
  have hhead : (partialName manifestPath sha256).head? = some 'c' := rfl
  generalize partialName manifestPath sha256 = name at hslash hnul hhead
  cases name with
  | nil => cases hhead
  | cons c rest =>
      cases hhead
      simp only [isFileName, isName, List.cons_ne_nil, ne_eq]
      simp [hslash, hnul]

/-- Files with different paths are staged under different names, unless their keys collide. -/
theorem partialName_injective {p p' s s' : Str} (hs : utf8Len s = 64) (hs' : utf8Len s' = 64)
    (hcollide : Crypto.sha256 (partialKey p s) = Crypto.sha256 (partialKey p' s') →
      partialKey p s = partialKey p' s') (heq : partialName p s = partialName p' s') : p = p' := by
  have hhex : sha256Hex (partialKey p s) = sha256Hex (partialKey p' s') :=
    List.append_cancel_left (List.append_cancel_right heq)
  have hkey := hcollide (Subtype.ext (hexEncode_injective hhex))
  have hlen : (asBytes s).length = (asBytes s').length := by
    rw [length_asBytes, length_asBytes, hs, hs']
  have hkey := (List.append_inj_left' hkey hlen)
  exact asBytes_injective (List.append_cancel_right hkey)

end Names

end Syncbox
