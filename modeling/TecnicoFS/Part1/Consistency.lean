import TecnicoFS.Part1.SizeLimit
import TecnicoFS.Part1.Directory

/-!
# Part 1: consistent states

The invariant of sequential runs whose writes do not run into one of the defects of `tfs_write`:
the blocks of all files are laid out, the root directory lists files only, no file is larger
than it can be, and every handle that was ever given out refers to a file. A write keeps it
(`Wrote.consistent`) and touches no other file, as long as the filling of a new indirect block
hits no block in use (`HarmlessTable`).
-/

namespace TecnicoFS.Part1

open Threads Threads.Prog
open Part2 (blockSize dataBlocks inodeTableSize maxOpenFiles blockAddr dataBlockGet rootBlock)

variable {fs fs' : FS} {n m : Fin inodeTableSize} {h : Fin maxOpenFiles} {off : Nat}
  {data buffer : List UInt8} {b c : Fin dataBlocks}

/-- The handle refers to a file, or it was never given out. -/
def Refers (fs : FS) (h : Fin maxOpenFiles) : Prop :=
  ((fs.openFileTable h).ofInumber = 0 ∧ fs.freeOpenFileEntries h = .free) ∨
    ∃ n : Fin inodeTableSize, (fs.openFileTable h).ofInumber = ((n : Nat) : Int) ∧ IsFile fs n

/-- The invariant of sequential runs. -/
structure Consistent (fs : FS) : Prop where
  layout : Layout fs
  rootType : (fs.inodeTable 0).iNodeType = .tDirectory
  rootData : fs.rootRef = 0
  rootTaken : fs.freeinodeTs 0 = .taken
  rootBlock : fs.freeBlocks 0 = .taken
  entries : ∀ i, entryNumber fs i ≠ -1 →
    ∃ n : Fin inodeTableSize, entryNumber fs i = ((n : Nat) : Int) ∧ IsFile fs n
  sizes : ∀ n, IsFile fs n → (fs.inodeTable n).iSize ≤ maxFileSize
  handles : ∀ h, Refers fs h

/-- The block belongs to a file or to the root directory. -/
def InUse (fs : FS) (b : Fin dataBlocks) : Prop :=
  (∃ m, IsFile fs m ∧ fs.Owns m b) ∨ fs.rootRef = ((b : Nat) : Int)

/-- A new indirect block can be filled without leaving `fs_data` and without hitting a block in
use. -/
def HarmlessTable (fs : FS) (n : Fin inodeTableSize) (i stop : Nat) : Prop :=
  ∀ t, newTable fs n i stop = some t →
    (t : Nat) + 3 < dataBlocks ∧ ∀ c, t < c → (c : Nat) ≤ t + 3 → ¬ InUse fs c

/-- A write that does not run into one of the defects of `tfs_write`: it writes something, does
not run over the end of a block, stays within the largest size, and if it allocates an indirect
block, filling that does no harm. -/
structure WriteOk (fs : FS) (h : Fin maxOpenFiles) (n : Fin inodeTableSize)
    (buffer : List UInt8) : Prop where
  nonempty : buffer ≠ []
  fits : Fits (fs.openFileTable h).ofOffset buffer.length
  limit : (fs.openFileTable h).ofOffset + buffer.length ≤ maxFileSize
  table : HarmlessTable fs n ((fs.openFileTable h).ofOffset / blockSize)
    (stopBlock ((fs.openFileTable h).ofOffset +
      planned (fs.openFileTable h).ofOffset buffer.length))

/-! ## Files -/

theorem IsFile.ne_root (hn : IsFile fs n) (hc : Consistent fs) : n ≠ 0 := by
  rintro rfl
  have htype := hn.2
  rw [hc.rootType] at htype
  cases htype

/-- What a block belongs to is taken. -/
theorem Layout.taken_of_owns (hl : Layout fs) (hn : IsFile fs n) (hb : fs.Owns n b) :
    fs.freeBlocks b = .taken := by
  rcases hb with ⟨r, hr⟩
  rcases hl.taken n r hn (hr ▸ natCast_ne_absent b) with ⟨c, hc, htaken⟩
  rwa [natCast_block_inj (hr.symm.trans hc)]

theorem Layout.owner_unique (hl : Layout fs) (hn : IsFile fs n) (hm : IsFile fs m)
    (hnb : fs.Owns n b) (hmb : fs.Owns m b) : n = m := by
  rcases hnb with ⟨r, hr⟩
  rcases hmb with ⟨r', hr'⟩
  exact (hl.distinct n m r r' hn hm (hr ▸ natCast_ne_absent b) (hr.trans hr'.symm)).1

theorem Layout.not_root (hl : Layout fs) (hn : IsFile fs n) (hb : fs.Owns n b) :
    fs.rootRef ≠ ((b : Nat) : Int) := by
  rcases hb with ⟨r, hr⟩
  intro hroot
  exact hl.root n r hn (hr ▸ natCast_ne_absent b) (hr.trans hroot.symm)

theorem SameRest.isFile (hr : SameRest n fs fs') : IsFile fs' m ↔ IsFile fs m := by
  refine isFile_congr hr.states ?_
  by_cases hm : m = n
  · subst hm
    exact hr.nType
  · rw [hr.others m hm]

/-- The root directory lies in block 0. -/
theorem Consistent.root_eq (hc : Consistent fs) (hb : fs.rootRef = ((b : Nat) : Int)) : b = 0 := by
  rw [hc.rootData] at hb
  have hval : (b : Nat) = 0 := by omega
  exact Fin.ext hval

/-- A block in use is taken. -/
theorem InUse.taken (hb : InUse fs b) (hc : Consistent fs) : fs.freeBlocks b = .taken := by
  rcases hb with ⟨m, hm, hown⟩ | hroot
  · exact hc.layout.taken_of_owns hm hown
  · rw [hc.root_eq hroot]
    exact hc.rootBlock

/-- A new indirect block can be filled where all blocks behind it are free. -/
theorem HarmlessTable.of_free {i stop : Nat} (hc : Consistent fs)
    (hfree : ∀ t : Fin dataBlocks, newTable fs n i stop = some t → (t : Nat) + 3 < dataBlocks ∧
      ∀ c, t < c → fs.freeBlocks c = .free) : HarmlessTable fs n i stop := by
  intro t ht
  rcases hfree t ht with ⟨hin, hbehind⟩
  refine ⟨hin, fun c hlt _ hused => ?_⟩
  have htaken := hused.taken hc
  rw [hbehind c hlt] at htaken
  cases htaken

/-- A call that changes neither blocks nor i-nodes in use keeps the invariant if the handles
still refer to files. -/
theorem Consistent.of_core (hc : Consistent fs) (hstates : fs'.freeinodeTs = fs.freeinodeTs)
    (hinodes : ∀ m, fs.freeinodeTs m = .taken → fs'.inodeTable m = fs.inodeTable m)
    (hdata : fs'.fsData = fs.fsData) (hmarks : fs'.freeBlocks = fs.freeBlocks)
    (hhandles : ∀ h, Refers fs' h) : Consistent fs' := by
  have hfile : ∀ m, IsFile fs' m ↔ IsFile fs m := by
    intro m
    rw [IsFile, IsFile, hstates]
    refine and_congr_right fun htaken => ?_
    rw [hinodes m htaken]
  -- the places of the files are read off i-nodes and bytes that stay
  have href : ∀ m, IsFile fs m → fs'.ref m = fs.ref m := fun m hm =>
    ref_congr (by rw [hinodes m hm.1]) (by rw [hinodes m hm.1]) fun t _ x _ => by rw [hdata]
  have hzero := hinodes 0 hc.rootTaken
  have hroot : fs'.rootRef = fs.rootRef := by rw [FS.rootRef, FS.rootRef, hzero]
  exact
    { layout :=
        { taken := fun m r hm hr => by
            have hm := (hfile m).mp hm
            rw [href m hm] at hr ⊢
            rw [hmarks]
            exact hc.layout.taken m r hm hr
          distinct := fun m m' r r' hm hm' hr heq => by
            have hm := (hfile m).mp hm
            have hm' := (hfile m').mp hm'
            rw [href m hm] at hr heq
            rw [href m' hm'] at heq
            exact hc.layout.distinct m m' r r' hm hm' hr heq
          root := fun m r hm hr => by
            have hm := (hfile m).mp hm
            rw [href m hm] at hr ⊢
            rw [hroot]
            exact hc.layout.root m r hm hr }
      rootType := by rw [hzero]; exact hc.rootType
      rootData := hroot.trans hc.rootData
      rootTaken := by rw [hstates]; exact hc.rootTaken
      rootBlock := by rw [hmarks]; exact hc.rootBlock
      entries := fun i hi => by
        rw [(entry_congr (fun x (_ : x < blockSize) => congrFun hdata x) i).1] at hi ⊢
        rcases hc.entries i hi with ⟨k, hk, hfk⟩
        exact ⟨k, hk, (hfile k).mpr hfk⟩
      sizes := fun m hm => by
        have hm := (hfile m).mp hm
        rw [hinodes m hm.1]
        exact hc.sizes m hm
      handles := hhandles }

/-! ## A write -/

section

variable (hc : Consistent fs) (hn : IsFile fs n) (hw : Wrote h n off data fs fs')
  (hspill : ∀ b, Spilled fs fs' n b → ¬ InUse fs b)

include hc hn hw hspill

/-- The blocks of the other files hold the same bytes. -/
theorem Wrote.same_other (hm : IsFile fs m) (hmn : m ≠ n) (hb : fs.Owns m b) :
    SameBlock fs fs' b := by
  refine hw.frame b ?_ fun hsp => hspill b hsp (Or.inl ⟨m, hm, hb⟩)
  rintro ⟨r, hr⟩
  by_cases habsent : fs.ref n r = -1
  · have hfree := hw.fresh r b habsent hr
    rw [hc.layout.taken_of_owns hm hb] at hfree
    cases hfree
  · have hown : fs.Owns n b := ⟨r, (hw.kept r habsent).symm.trans hr⟩
    exact hmn (hc.layout.owner_unique hm hn hb hown)

/-- The root directory holds the same bytes. -/
theorem Wrote.same_root (hb : fs.rootRef = ((b : Nat) : Int)) : SameBlock fs fs' b := by
  refine hw.frame b ?_ fun hsp => hspill b hsp (Or.inr hb)
  rintro ⟨r, hr⟩
  by_cases habsent : fs.ref n r = -1
  · have hfree := hw.fresh r b habsent hr
    rw [hc.root_eq hb, hc.rootBlock] at hfree
    cases hfree
  · exact hc.layout.not_root hn ⟨r, (hw.kept r habsent).symm.trans hr⟩ hb

theorem Wrote.root_bytes {x : Nat} (hx : x < blockSize) : fs'.fsData x = fs.fsData x := by
  have hbyte := hw.same_root hc hn hspill (b := 0) hc.rootData x hx
  rwa [show blockAddr 0 + x = x by simp [blockAddr]] at hbyte

/-- The block maps of the other files are the same. -/
theorem Wrote.ref_other (hm : IsFile fs m) (hmn : m ≠ n) : fs'.ref m = fs.ref m := by
  refine ref_congr ?_ ?_ fun t ht => hw.same_other hc hn hspill hm hmn ⟨.table, ht⟩
  · rw [hw.rest.others m hmn]
  · rw [hw.rest.others m hmn]

theorem Wrote.layout (hl' : FileLayout fs' n) : Layout fs' := by
  have hfile : ∀ k, IsFile fs' k ↔ IsFile fs k := fun k => hw.rest.isFile
  have hother : ∀ k, IsFile fs' k → k ≠ n → fs'.ref k = fs.ref k :=
    fun k hk hkn => hw.ref_other hc hn hspill ((hfile k).mp hk) hkn
  have hroot : fs'.rootRef = fs.rootRef := by
    rw [FS.rootRef, FS.rootRef, hw.rest.others 0 (hn.ne_root hc).symm]
  -- a block of the written file is in no other file
  have hapart : ∀ k r r', IsFile fs' k → k ≠ n → fs'.ref n r ≠ -1 →
      fs'.ref n r ≠ fs'.ref k r' := by
    intro k r r' hk hkn hr heq
    rcases hl'.taken r hr with ⟨b, hb, -⟩
    rw [hother k hk hkn, hb] at heq
    have hkb : fs.Owns k b := ⟨r', heq.symm⟩
    have hkfile := (hfile k).mp hk
    by_cases habsent : fs.ref n r = -1
    · have hfree := hw.fresh r b habsent hb
      rw [hc.layout.taken_of_owns hkfile hkb] at hfree
      cases hfree
    · have hown : fs.Owns n b := ⟨r, (hw.kept r habsent).symm.trans hb⟩
      exact hkn (hc.layout.owner_unique hkfile hn hkb hown)
  refine ⟨fun k r hk hr => ?_, fun k k' r r' hk hk' hr heq => ?_, fun k r hk hr => ?_⟩
  · by_cases hkn : k = n
    · subst hkn
      exact hl'.taken r hr
    · rw [hother k hk hkn] at hr ⊢
      rcases hc.layout.taken k r ((hfile k).mp hk) hr with ⟨b, hb, htaken⟩
      exact ⟨b, hb, (hw.marks b).mpr (Or.inl htaken)⟩
  · by_cases hkn : k = n <;> by_cases hkn' : k' = n
    · subst hkn hkn'
      exact ⟨rfl, hl'.distinct r r' hr heq⟩
    · subst hkn
      exact absurd heq (hapart k' r r' hk' hkn' hr)
    · subst hkn'
      exact absurd heq.symm (hapart k r' r hk hkn (heq ▸ hr))
    · rw [hother k hk hkn] at hr heq
      rw [hother k' hk' hkn'] at heq
      exact hc.layout.distinct k k' r r' ((hfile k).mp hk) ((hfile k').mp hk') hr heq
  · rw [hroot]
    by_cases hkn : k = n
    · subst hkn
      rcases hl'.taken r hr with ⟨b, hb, -⟩
      rw [hb]
      intro heq
      by_cases habsent : fs.ref k r = -1
      · have hfree := hw.fresh r b habsent hb
        rw [hc.root_eq heq.symm, hc.rootBlock] at hfree
        cases hfree
      · exact hc.layout.not_root hn ⟨r, (hw.kept r habsent).symm.trans hb⟩ heq.symm
    · rw [hother k hk hkn] at hr ⊢
      exact hc.layout.root k r ((hfile k).mp hk) hr

/-- A write keeps the invariant. -/
theorem Wrote.consistent (hl' : FileLayout fs' n)
    (hsize : grown (fs.inodeTable n).iSize off data.length ≤ maxFileSize) : Consistent fs' := by
  have hfile : ∀ k, IsFile fs' k ↔ IsFile fs k := fun k => hw.rest.isFile
  have hzero := hw.rest.others 0 (hn.ne_root hc).symm
  have hroot : fs'.rootRef = fs.rootRef := by rw [FS.rootRef, FS.rootRef, hzero]
  exact
    { layout := hw.layout hc hn hspill hl'
      rootType := by rw [hzero]; exact hc.rootType
      rootData := hroot.trans hc.rootData
      rootTaken := by rw [hw.rest.states]; exact hc.rootTaken
      rootBlock := (hw.marks 0).mpr (Or.inl hc.rootBlock)
      entries := fun i hi => by
        rw [(entry_congr (fun x => hw.root_bytes hc hn hspill) i).1] at hi ⊢
        rcases hc.entries i hi with ⟨k, hk, hfk⟩
        exact ⟨k, hk, (hfile k).mpr hfk⟩
      sizes := fun k hk => by
        by_cases hkn : k = n
        · rw [hkn, hw.size]
          exact hsize
        · rw [hw.rest.others k hkn]
          exact hc.sizes k ((hfile k).mp hk)
      handles := fun k => by
        have hinumber : (fs'.openFileTable k).ofInumber = (fs.openFileTable k).ofInumber := by
          rw [hw.handle]
          by_cases hk : k = h
          · subst hk
            rw [Function.update_self]
          · rw [Function.update_of_ne hk]
        rw [Refers, hinumber, hw.rest.handles]
        refine (hc.handles k).imp id ?_
        rintro ⟨j, hj, hfj⟩
        exact ⟨j, hj, (hfile j).mpr hfj⟩ }

end

theorem HarmlessTable.safe {i stop : Nat} (hh : HarmlessTable fs n i stop) (hn : IsFile fs n) :
    SafeTable fs n i stop := by
  intro t ht
  rcases hh t ht with ⟨hin, hused⟩
  exact ⟨hin, fun c hown hspill => hused c hspill.1 hspill.2 (Or.inl ⟨n, hn, hown⟩)⟩

/-- The blocks a write spills into are those behind its new indirect block. -/
theorem Ended.spilled_harmless {i stop planned count : Nat}
    (he : Ended h n off i stop planned buffer count fs fs') (hh : HarmlessTable fs n i stop) :
    ∀ b, Spilled fs fs' n b → ¬ InUse fs b := by
  rintro b ⟨habsent, t, ht, hlt, hle⟩
  exact (hh t (he.table t habsent ht)).2 b hlt hle

/-- A write that runs into none of the defects: how it ends, what it can spill into, and that
it keeps the invariant. -/
theorem WriteOk.eval (hc : Consistent fs)
    (hrefers : (fs.openFileTable h).ofInumber = ((n : Nat) : Int)) (hn : IsFile fs n)
    (hok : WriteOk fs h n buffer) (hoff : (fs.openFileTable h).ofOffset = off) :
    ∃ count fs', (tfsWrite ((h : Nat) : Int) buffer).eval fs =
        some (if count = planned off buffer.length then (count : Int) else -1, fs') ∧
      Ended h n off (off / blockSize) (stopBlock (off + planned off buffer.length))
        (planned off buffer.length) buffer count fs fs' ∧
      (∀ b, Spilled fs fs' n b → ¬ InUse fs b) ∧ Consistent fs' := by
  have hlimit := hok.limit
  have hfits := hok.fits
  have htable := hok.table
  rw [hoff] at hlimit hfits htable
  have hle : planned off buffer.length ≤ buffer.length := Nat.min_le_left ..
  have hmax : off + planned off buffer.length ≤ maxFileSize := by omega
  have hword : off + buffer.length < wordSize := by
    simp only [maxFileSize, maxFileBlocks, maxDirectBlocks, tableSize, blockSize] at hlimit
    simp only [wordSize]
    omega
  rcases tfsWrite_eval (hc.layout.file hn) hrefers hoff hok.nonempty hword hfits hmax
    (htable.safe hn) with ⟨count, fs', heval, hended⟩
  have hspill := hended.spilled_harmless htable
  refine ⟨count, fs', heval, hended, hspill,
    hended.wrote.consistent hc hn hspill hended.layout ?_⟩
  have hcount := hended.le
  have hsize := hc.sizes n hn
  have hlen : (buffer.take count).length = count := List.length_take_of_le (by omega)
  rw [hlen, grown]
  split
  · exact hsize
  · omega

/-- Handles that still refer to files. -/
theorem Refers.congr (hr : Refers fs h)
    (hinumber : (fs'.openFileTable h).ofInumber = (fs.openFileTable h).ofInumber)
    (hmark : fs'.freeOpenFileEntries h = .taken → fs.freeOpenFileEntries h = .taken)
    (hfile : ∀ m, IsFile fs m → IsFile fs' m) : Refers fs' h := by
  rcases hr with ⟨hzero, hfree⟩ | ⟨k, hk, hkfile⟩
  · refine Or.inl ⟨hinumber.trans hzero, ?_⟩
    rw [eq_free_iff] at hfree ⊢
    exact fun htaken => hfree (hmark htaken)
  · exact Or.inr ⟨k, hinumber.trans hk, hfile k hkfile⟩

/-! ## The first state -/

theorem initialFS_isFile : ¬ IsFile initialFS n := by
  rintro ⟨htaken, htype⟩
  by_cases hn : n = 0
  · subst hn
    simp [initialFS, rootInode] at htype
  · simp [initialFS, boot, hn] at htaken

theorem initialFS_consistent : Consistent initialFS where
  layout := ⟨fun _ _ hn => absurd hn initialFS_isFile, fun _ _ _ _ hn => absurd hn initialFS_isFile,
    fun _ _ hn => absurd hn initialFS_isFile⟩
  rootType := rfl
  rootData := rfl
  rootTaken := rfl
  rootBlock := rfl
  entries i hi := absurd (entryNumber_initial i) hi
  sizes _ hn := absurd hn initialFS_isFile
  handles _ := Or.inl ⟨rfl, rfl⟩

end TecnicoFS.Part1
