/-
# `SeerDb.Blob.DirectSpec` — a view finds what the publication wrote

The walk over the descriptors goes from file to file as long as the number of marks it
reads is the number that stands there: a count of `2^32` marks or more is cut in the
image, and the next descriptor is then read out of the list of marks.
-/
import SeerDb.Blob.DirectView
import SeerDb.Blob.WireSpec

namespace SeerDb

open Lib List

/-! ## Reading a place -/

section

variable {data l r : Bytes} {offset len : Nat}

theorem readExactAt_of_drop (h : data.drop offset = l ++ r) (hl : l.length = len) (hpos : 0 < len) :
    readExactAt data offset len = .ok l := by
  have hlen := congrArg List.length h
  rw [length_drop, length_append] at hlen
  rw [readExactAt, if_pos (by omega), slice, h, ← hl, take_left]

theorem drop_of_drop (h : data.drop offset = l ++ r) : data.drop (offset + l.length) = r := by
  rw [← drop_drop, h, drop_left]

theorem le_length_of_drop (h : data.drop offset = l ++ r) (hpos : 0 < l.length) :
    offset + (l.length + r.length) = data.length := by
  have hlen := congrArg List.length h
  rw [length_drop, length_append] at hlen
  omega

theorem checkedAdd_ok {message : String} {a b : Nat} (h : a + b ≤ u64Max) :
    checkedAdd message a b = .ok (a + b) :=
  if_pos h

end

/-! ## Reading a record -/

/-- A record that stands where the pointer leads. -/
theorem DirectView.read_eq {v : DirectView} {p : BlobPointer} {file pre post : Bytes} {base : Nat}
    {r : BlobRecord} {keyPrefix : KeyPrefix} (hfile : get p.fileId v.files = some file)
    (hbase : get p.fileId v.bases = some base)
    (hbytes : file = pre ++ (r.toBytes keyPrefix ++ post))
    (hpre : pre.length = base + p.offset) (hlen : pre.length + r.serializedSize ≤ isizeMax)
    (hvalue : r.value.length ≤ u32Max) (hp : p.length = r.value.length) :
    v.read p = .ok r.value := by
  have hdrop : file.drop (base + p.offset) = r.toBytes keyPrefix ++ post := by
    rw [hbytes, ← hpre, drop_left]
  have hsize : r.serializedSize = 16 + r.value.length := rfl
  have hmax : isizeMax < u64Max := by decide
  obtain ⟨body, hbody, hbl, hval⟩ := r.toBytes_eq keyPrefix
  have hfield : leAt (body.take 12) 8 4 = r.value.length := by
    have := @BlobRecord.leAt_toBytes keyPrefix r hvalue
    rw [hbody] at this
    rw [← this, leAt, leAt, slice, slice, drop_append_of_le_length (by omega), drop_take, take_take,
      take_append_of_le_length (by rw [length_drop]; omega)]
    rfl
  rw [hbody, append_assoc] at hdrop
  have hhead : file.drop (base + p.offset) = body.take 12 ++
    (body.drop 12 ++ (toLe 4 (crc32c body) ++ post)) := by
    rw [hdrop, ← append_assoc (body.take 12), take_append_drop]
  have hcrc := drop_of_drop hdrop
  rw [read, hfile, hbase]
  simp only
  rw [checkedAdd_ok (by omega), ok_bind, readExactAt_of_drop hhead (by simp; omega)
    (by decide), ok_bind]
  simp only [hfield]
  rw [if_neg (by rw [hp]; exact not_not.mpr rfl), readExactAt_of_drop hdrop hbl (by omega), ok_bind,
    checkedAdd_ok (by omega), ok_bind, ← hbl, readExactAt_of_drop hcrc (length_toLe 4 _)
      (by decide), ok_bind,
    ofLe_toLe 4 _ (crc32c_lt body), if_neg (not_not.mpr rfl), hval]

/-! ## Walking an image -/

section Walk

variable {prefixes : KeyPrefixes} {data rest : Bytes} {f : BlobFile} {cursor count : Nat}
  {bases : List (Nat × Nat)}

/-- One file of the image: the walk goes on behind as many marks as the count says. -/
theorem walkImage_step (hd : data.drop cursor = f.imageSection prefixes ++ rest)
    (hlen : data.length ≤ isizeMax) (hid : validFileId f.fileId) (hmax : f.fileId ≤ u32Max)
    (hnew : f.fileId ∉ bases.map Prod.fst) :
    walkImage data (count + 1) cursor bases
      = walkImage data count (cursor + (16 + f.serializedSize + 8 * (f.deletedCount % 2 ^ 32)))
          (bases ++ [(f.fileId, cursor + 12)]) := by
  have hsize := f.length_imageSection prefixes
  have hend := le_length_of_drop hd (by rw [hsize, BlobFile.sectionSize]; omega)
  rw [hsize, BlobFile.sectionSize] at hend
  have hu64 : isizeMax < u64Max := by decide
  have hu8 : u64Max < 256 ^ 8 := by decide
  have hdesc : data.drop cursor = (toLe 4 f.fileId ++ toLe 8 (f.toBytes prefixes).length)
      ++ ((f.toBytes prefixes ++ (toLe 4 f.deletedCount ++ f.deletedOffsets.flatMap (toLe 8))) ++
        rest) := by
    rw [hd, BlobFile.imageSection]
    simp only [append_assoc]
  have hdata := drop_of_drop hdesc
  rw [length_append, length_toLe, length_toLe, append_assoc] at hdata
  have hmarks := drop_of_drop hdata
  rw [append_assoc, f.length_toBytes] at hmarks
  have hidField : leAt (toLe 4 f.fileId ++ toLe 8 (f.toBytes prefixes).length) 0 4 = f.fileId :=
    leAt_head (lt_of_le_of_lt hmax (by decide))
  have hlenField : leAt (toLe 4 f.fileId ++ toLe 8 (f.toBytes prefixes).length) 4 8 =
    f.serializedSize := by
    rw [leAt_skip (by simp), length_toLe, Nat.sub_self, leAt_all (by rw [f.length_toBytes]; omega),
      f.length_toBytes]
  have hcount : leAt (toLe 4 f.deletedCount) 0 4 = f.deletedCount % 2 ^ 32 := by
    rw [leAt, slice_all (length_toLe 4 _), ofLe_toLe_mod]
    rfl
  have hmod := Nat.mod_le f.deletedCount (2 ^ 32)
  have hzero : f.fileId ≠ 0 := by
    intro h0
    rw [h0] at hid
    cases hid
  rw [walkImage, readExactAt_of_drop hdesc (by simp) (by decide), ok_bind,
    checkedAdd_ok (by omega), ok_bind,
    hidField, hlenField, checkedAdd_ok (by omega), ok_bind, addBase,
    if_neg (not_or.mpr ⟨hzero, not_or.mpr ⟨by omega, hnew⟩⟩), ok_bind,
    readExactAt_of_drop hmarks (length_toLe 4 _) (by decide), ok_bind, checkedAdd_ok (by omega),
    ok_bind, hcount, checkedAdd_ok (by omega), ok_bind]
  have hnext : cursor + 12 + f.serializedSize + 4 + 8 * (f.deletedCount % 2 ^ 32)
      = cursor + (16 + f.serializedSize + 8 * (f.deletedCount % 2 ^ 32)) := by omega
  rw [hnext]

/-- The ids of the files are fresh ids of the format. -/
def FreshIds (bases : List (Nat × Nat)) (files : List BlobFile) : Prop :=
  (∀ f ∈ files, validFileId f.fileId ∧ f.fileId ≤ u32Max ∧ f.fileId ∉ bases.map Prod.fst) ∧
    (files.map BlobFile.fileId).Nodup

theorem FreshIds.tail {files : List BlobFile} (h : FreshIds bases (f :: files)) (base : Nat) :
    FreshIds (bases ++ [(f.fileId, base)]) files := by
  obtain ⟨hmem, hnodup⟩ := h
  obtain ⟨hnot, hnodup⟩ := nodup_cons.mp hnodup
  refine ⟨fun g hg => ?_, hnodup⟩
  obtain ⟨hvalid, hmax, hnew⟩ := hmem g (.tail _ hg)
  refine ⟨hvalid, hmax, ?_⟩
  rw [map_append, mem_append, not_or]
  refine ⟨hnew, fun hid => hnot ?_⟩
  have hid : g.fileId = f.fileId := mem_singleton.mp hid
  rw [← hid]
  exact mem_map_of_mem hg

/-- A file in the middle, behind the files before it. -/
theorem FreshIds.split {pre post : List BlobFile} (h : FreshIds [] (pre ++ f :: post))
    (start : Nat) :
    FreshIds [] pre ∧ validFileId f.fileId ∧ f.fileId ≤ u32Max ∧
      f.fileId ∉ (basesFrom start pre).map Prod.fst := by
  obtain ⟨hmem, hnodup⟩ := h
  rw [map_append, nodup_append] at hnodup
  obtain ⟨hpre, -, hdisj⟩ := hnodup
  obtain ⟨hvalid, hmax, -⟩ := hmem f mem_append_cons_self
  refine ⟨⟨fun x hx => hmem x (mem_append_left _ hx), hpre⟩, hvalid, hmax, ?_⟩
  rw [map_fst_basesFrom]
  intro hin
  exact hdisj _ hin _ (.head _) rfl

/-- Files whose counts fit are passed one after the other. -/
theorem walkImage_files (hlen : data.length ≤ isizeMax) : ∀ {files : List BlobFile} {cursor : Nat}
    {bases : List (Nat × Nat)}, data.drop cursor =
    files.flatMap (BlobFile.imageSection prefixes) ++ rest →
    (∀ f ∈ files, f.deletedCount < 2 ^ 32) → FreshIds bases files →
    walkImage data (files.length + count) cursor bases
      = walkImage data count (cursor + sectionsSize files) (bases ++ basesFrom cursor files)
  | [], cursor, bases, _, _, _ => by simp [sectionsSize, basesFrom]
  | f :: files, cursor, bases, hd, hcounts, hids => by
    obtain ⟨hvalid, hmax, hnew⟩ := hids.1 f (.head _)
    rw [flatMap_cons, append_assoc] at hd
    have hrest := drop_of_drop hd
    rw [f.length_imageSection] at hrest
    rw [length_cons, Nat.add_right_comm, walkImage_step hd hlen hvalid hmax hnew,
      Nat.mod_eq_of_lt (hcounts f (.head _)), ← BlobFile.sectionSize,
      walkImage_files hlen hrest (fun g hg => hcounts g (.tail _ hg)) (hids.tail _), basesFrom,
      append_assoc, singleton_append, sectionsSize, sectionsSize, map_cons, sum_cons, Nat.add_assoc]

/-- A walk that succeeds has added one base a turn. -/
theorem walkImage_ok : ∀ {count cursor : Nat} {bases found : List (Nat × Nat)},
    walkImage data count cursor bases = .ok found → ∃ more, found = bases ++ more ∧
      more.length = count ∧ (0 < count → ∃ fileId, (fileId, cursor + 12) ∈ more)
  | 0, _, bases, found, h => by
    rw [walkImage] at h
    cases h
    exact ⟨[], (append_nil _).symm, rfl, fun h0 => absurd h0 (lt_irrefl 0)⟩
  | count + 1, cursor, bases, found, h => by
    rw [walkImage] at h
    obtain ⟨descriptor, -, h⟩ := bind_eq_ok.mp h
    obtain ⟨base, hbase, h⟩ := bind_eq_ok.mp h
    obtain ⟨dataEnd, -, h⟩ := bind_eq_ok.mp h
    obtain ⟨bases₁, hadd, h⟩ := bind_eq_ok.mp h
    obtain ⟨deletedCount, -, h⟩ := bind_eq_ok.mp h
    obtain ⟨cursor₁, -, h⟩ := bind_eq_ok.mp h
    obtain ⟨cursor₂, -, h⟩ := bind_eq_ok.mp h
    obtain ⟨more, rfl, hmore, -⟩ := walkImage_ok h
    rw [checkedAdd] at hbase
    split at hbase
    · cases hbase
      rw [addBase] at hadd
      split at hadd
      · cases hadd
      · cases hadd
        refine ⟨_ :: more, append_assoc _ _ _, ?_, fun _ => ⟨_, .head _⟩⟩
        rw [length_cons, hmore]
    · cases hbase

end Walk

/-! ## The bases of an image -/

section Image

variable {prefixes : KeyPrefixes} {b : BlobManager}

/-- What stands behind the sections. -/
def BlobManager.footer (prefixes : KeyPrefixes) (b : BlobManager) : Bytes :=
  toLe 8 ((b.payload prefixes).length + 12) ++
    toLe 4 (crc32c (b.payload prefixes ++ toLe 8 ((b.payload prefixes).length + 12)))

theorem BlobManager.toBytes_eq (prefixes : KeyPrefixes) (b : BlobManager) :
    b.toBytes prefixes = b.imageHeader ++ (b.files.flatMap (BlobFile.imageSection prefixes) ++
      b.footer prefixes) := by
  simp only [toBytes, withChecksum, footer, payload, append_assoc]

theorem BlobManager.length_imageHeader (b : BlobManager) : b.imageHeader.length = 32 := by
  simp [imageHeader, blobFormatMagic]

theorem BlobManager.length_image (prefixes : KeyPrefixes) (b : BlobManager) :
    (b.toBytes prefixes).length = 44 + sectionsSize b.files := by
  rw [b.toBytes_eq, length_append, length_append, b.length_imageHeader, length_sections, footer,
    length_append, length_toLe, length_toLe]
  omega

theorem BlobManager.WF.freshIds (h : b.WF) : FreshIds [] b.files := by
  refine ⟨?_, ?_⟩
  · intro f hf
    obtain ⟨hpos, hlt⟩ := h.valid f hf
    have hle := h.next_le
    refine ⟨?_, by omega, not_mem_nil⟩
    rw [validFileId, Bool.and_eq_true, decide_eq_true_iff, decide_eq_true_iff]
    exact ⟨by omega, by omega⟩
  · exact List.Pairwise.imp Nat.ne_of_lt (pairwise_map.mpr h.ids)

/-- There are no more files than ids. -/
theorem BlobManager.WF.length_files (h : b.WF) : b.files.length < 2 ^ 32 := by
  have hsub : b.files.map BlobFile.fileId ⊆ List.range u32Max := by
    intro id hid
    obtain ⟨f, hf, rfl⟩ := mem_map.mp hid
    exact mem_range.mpr ((h.valid f hf).2.trans_le h.next_le)
  have hle := (subperm_of_subset h.freshIds.2 hsub).length_le
  rw [length_map, length_range] at hle
  exact lt_of_le_of_lt hle (by decide)

/-- The header leads to the walk over the sections. -/
theorem imageBases_toBytes (h : b.WF) :
    imageBases (b.toBytes prefixes) = walkImage (b.toBytes prefixes) b.files.length 32 [] := by
  have hdrop : (b.toBytes prefixes).drop 0 = b.imageHeader ++ _ := b.toBytes_eq prefixes
  have hlen := b.length_image prefixes
  have hmagic : slice b.imageHeader 0 8 = blobFormatMagic := slice_head rfl
  have hversion : leAt b.imageHeader 8 4 = 1 := by
    rw [BlobManager.imageHeader, leAt_skip (by decide)]
    exact leAt_head (by decide)
  have hcount : leAt b.imageHeader 28 4 = b.files.length := by
    rw [BlobManager.imageHeader, leAt_skip (by decide), leAt_skip (by simp [blobFormatMagic]),
      leAt_skip (by simp [blobFormatMagic]), leAt_skip (by simp [blobFormatMagic])]
    simp only [length_toLe, blobFormatMagic, length_cons, length_nil]
    exact leAt_all h.length_files
  rw [imageBases, if_pos (by omega), readExactAt_of_drop hdrop b.length_imageHeader
    (by decide), ok_bind]
  simp only [hmagic, hversion, hcount, if_true, ne_eq, not_true, if_false]

theorem drop_toBytes (prefixes : KeyPrefixes) (b : BlobManager) : (b.toBytes prefixes).drop 32
    = b.files.flatMap (BlobFile.imageSection prefixes) ++ b.footer prefixes := by
  rw [b.toBytes_eq, ← b.length_imageHeader, drop_left]

/-- The records of a file stand in the image at its base. -/
theorem image_holds {f : BlobFile} (hf : f ∈ b.files) : ∃ (pre post : Bytes),
    b.toBytes prefixes = pre ++ (f.toBytes prefixes ++ post) ∧
      (f.fileId, pre.length) ∈ basesFrom 32 b.files := by
  obtain ⟨before, behind, hfiles⟩ := append_of_mem hf
  refine ⟨b.imageHeader ++ (before.flatMap (BlobFile.imageSection prefixes) ++
      (toLe 4 f.fileId ++ toLe 8 (f.toBytes prefixes).length)),
    toLe 4 f.deletedCount ++ (f.deletedOffsets.flatMap (toLe 8) ++
      (behind.flatMap (BlobFile.imageSection prefixes) ++ b.footer prefixes)), ?_, ?_⟩
  · rw [b.toBytes_eq, hfiles, flatMap_append, flatMap_cons, BlobFile.imageSection]
    simp only [append_assoc]
  · rw [hfiles, basesFrom_append, basesFrom]
    have hlen : (b.imageHeader ++ (before.flatMap (BlobFile.imageSection prefixes) ++
        (toLe 4 f.fileId ++ toLe 8 (f.toBytes prefixes).length))).length =
          32 + sectionsSize before + 12 := by
      simp only [length_append, b.length_imageHeader, length_sections, length_toLe]
      omega
    rw [hlen]
    exact mem_append_cons_self

/-- Every file but the last has a count of marks that fits. -/
def MarksFit (files : List BlobFile) : Prop := ∀ f ∈ files.dropLast, f.deletedCount < 2 ^ 32

/-- The walk finds every file. -/
theorem walkImage_toBytes (h : b.WF) (hlen : (b.toBytes prefixes).length ≤ isizeMax)
    (hfit : MarksFit b.files) :
    walkImage (b.toBytes prefixes) b.files.length 32 [] = .ok (basesFrom 32 b.files) := by
  have hids := h.freshIds
  have hdrop := drop_toBytes prefixes b
  rcases eq_nil_or_concat b.files with hnil | ⟨pre, last, hfiles⟩
  · rw [hnil]
    rfl
  rw [concat_eq_append] at hfiles
  -- the count of the last file leads nowhere any more
  rw [MarksFit, hfiles, dropLast_concat] at hfit
  rw [hfiles, flatMap_append, flatMap_singleton, append_assoc] at hdrop
  rw [hfiles] at hids
  obtain ⟨hpre, hvalid, hmax, hnew⟩ := hids.split 32
  have hrest := drop_of_drop hdrop
  rw [length_sections] at hrest
  rw [hfiles, length_append, length_singleton, walkImage_files hlen hdrop hfit hpre, nil_append,
    walkImage_step hrest hlen hvalid hmax hnew, walkImage, basesFrom_append]
  rfl

/-- The first file whose count is cut, with another file behind it. -/
theorem exists_first_long {files : List BlobFile} (h : ¬ MarksFit files) : ∃ pre f g post,
    files = pre ++ f :: g :: post ∧ (∀ x ∈ pre, x.deletedCount < 2 ^ 32) ∧
      2 ^ 32 ≤ f.deletedCount := by
  induction files with
  | nil => exact absurd (fun f hf => nomatch hf) h
  | cons f files ih =>
    cases files with
    | nil => exact absurd (fun f hf => nomatch hf) h
    | cons g post =>
      by_cases hf : f.deletedCount < 2 ^ 32
      · have hrest : ¬ MarksFit (g :: post) := by
          intro hfit
          refine h ?_
          intro x hx
          rw [dropLast_cons_of_ne_nil (cons_ne_nil g post)] at hx
          rcases mem_cons.mp hx with rfl | hx
          · exact hf
          · exact hfit x hx
        obtain ⟨pre, f', g', post', hfiles, hpre, hlong⟩ := ih hrest
        refine ⟨f :: pre, f', g', post', by rw [hfiles, cons_append], ?_, hlong⟩
        exact forall_mem_cons.mpr ⟨hf, hpre⟩
      · exact ⟨[], f, g, post, rfl, by simp, not_lt.mp hf⟩

/-- With a count that is cut, one of the turns goes to a descriptor that is none. -/
theorem walkImage_misses (h : b.WF) (hlen : (b.toBytes prefixes).length ≤ isizeMax)
    (hlong : ¬ MarksFit b.files) {found : List (Nat × Nat)}
    (hwalk : walkImage (b.toBytes prefixes) b.files.length 32 [] = .ok found) :
    ∃ entry ∈ basesFrom 32 b.files, entry ∉ found := by
  obtain ⟨pre, f, g, post, hfiles, hpre, hlong⟩ := exists_first_long hlong
  have hids := h.freshIds
  have hdrop := drop_toBytes prefixes b
  rw [hfiles, flatMap_append, append_assoc] at hdrop
  have hrest := drop_of_drop hdrop
  rw [length_sections, flatMap_cons, append_assoc] at hrest
  rw [hfiles] at hids
  obtain ⟨hidsPre, hvalid, hmax, hnew⟩ := hids.split 32
  have hcount : b.files.length = pre.length + (post.length + 1 + 1) := by
    rw [hfiles, length_append, length_cons, length_cons]
  rw [hcount, walkImage_files hlen hdrop hpre hidsPre, nil_append,
    walkImage_step hrest hlen hvalid hmax hnew] at hwalk
  obtain ⟨more, rfl, hmore, hturn⟩ := walkImage_ok hwalk
  obtain ⟨fileId, hbogus⟩ := hturn (Nat.succ_pos _)
  by_contra hall
  push Not at hall
  -- as many bases as files: the found ones would be the right ones, in some order
  have hnodup : (basesFrom 32 b.files).Nodup := by
    refine List.Nodup.of_map Prod.fst ?_
    rw [map_fst_basesFrom]
    exact h.freshIds.2
  have hperm := (subperm_of_subset hnodup hall).perm_of_length_le (by
    rw [length_basesFrom, length_append, length_append, length_basesFrom, hmore,
      hcount, length_singleton]
    omega)
  have hmem := hperm.mem_iff.mpr (mem_append_right _ hbogus)
  have hmod := Nat.mod_lt f.deletedCount (show 0 < 2 ^ 32 by decide)
  -- but the cut count leads between the base of this file and that of the next
  rw [hfiles, basesFrom_append, basesFrom, mem_append, mem_cons] at hmem
  rcases hmem with hmem | hmem | hmem
  · have := (mem_basesFrom hmem).2
    simp only at this
    omega
  · have := (Prod.mk.inj hmem).2
    omega
  · have := (mem_basesFrom hmem).1
    simp only [BlobFile.sectionSize] at this
    omega

end Image

end SeerDb
