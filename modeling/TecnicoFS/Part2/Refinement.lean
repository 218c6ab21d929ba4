import TecnicoFS.Part2.Runs
import TecnicoFS.Part2.Abstract

/-!
# Part 2: the code refines the abstract file system

`Sim` couples an abstract store with the five tables: the files are the entries
of the root directory in order, the contents of a file are the bytes of the
block it owns, and the abstract handles are the entries marked TAKEN. Every call
a client may make gives the same result on both sides and keeps them coupled,
so `run_refines` carries the agreement to whole sequences of calls.
-/

namespace TecnicoFS.Part2

open Abstract (Contents Handle Store)

variable {k : Nat} {fs fs' : FS} {name : CString} {r : Int} {n m : Fin inodeTableSize}
  {b : Fin dataBlocks} {h : Fin maxOpenFiles} {data : List UInt8}

/-! ## The contents of a file -/

/-- The bytes of a file: those of the block it owns, up to its size. -/
def fileBytes (fs : FS) (n : Fin inodeTableSize) : List UInt8 :=
  match ownBlock fs n with
  | some b => Memory.load fs.fsData (blockAddr b) (fs.inodeTable n).iSize
  | none => []

theorem fileBytes_of_own (hb : ownBlock fs n = some b) :
    fileBytes fs n = Memory.load fs.fsData (blockAddr b) (fs.inodeTable n).iSize := by
  unfold fileBytes
  rw [hb]

theorem fileBytes_of_empty (hsize : (fs.inodeTable n).iSize = 0) : fileBytes fs n = [] := by
  unfold fileBytes
  rw [ownBlock_of_empty hsize]

theorem length_fileBytes (hinv : Inv k fs) (hn : IsFile k n) :
    (fileBytes fs n).length = (fs.inodeTable n).iSize := by
  rcases Nat.eq_zero_or_pos (fs.inodeTable n).iSize with hzero | hpos
  · rw [fileBytes_of_empty hzero, hzero]
    rfl
  · rcases hinv.blocks n (hinv.taken_of_isFile hn) hpos with ⟨b, hb⟩
    rw [fileBytes_of_own hb, Memory.length_load]

/-- The contents depend on the i-node and on the bytes of its block. -/
theorem fileBytes_congr (hinv : Inv k fs) (hn : IsFile k n)
    (ht : fs'.freeinodeTs n = fs.freeinodeTs n) (hi : fs'.inodeTable n = fs.inodeTable n)
    (hdata : ∀ b, ownBlock fs n = some b → ∀ x, blockAddr b ≤ x →
      x < blockAddr b + blockSize → fs'.fsData x = fs.fsData x) :
    fileBytes fs' n = fileBytes fs n := by
  have hown : ownBlock fs' n = ownBlock fs n := ownBlock_congr ht hi
  unfold fileBytes
  rw [hown]
  cases hb : ownBlock fs n with
  | none => rfl
  | some b =>
      have hsize := (hinv.files n hn).2
      simp only [hi]
      apply Memory.load_congr
      intro x hlo hhi
      exact hdata b hb x hlo (by omega)

/-- Blocks do not overlap. -/
theorem blockAddr_disjoint {c : Fin dataBlocks} (hbc : b ≠ c) :
    blockAddr b + blockSize ≤ blockAddr c ∨ blockAddr c + blockSize ≤ blockAddr b := by
  have hne : (b : Nat) ≠ c := fun heq => hbc (Fin.ext heq)
  simp only [blockAddr, blockSize]
  omega

theorem dropBlock_fileBytes_self : fileBytes (dropBlock fs n b) n = [] :=
  fileBytes_of_empty (by simp [dropBlock])

theorem dropBlock_fileBytes_other (hinv : Inv k fs) (hm : IsFile k m) (hne : m ≠ n) :
    fileBytes (dropBlock fs n b) m = fileBytes fs m :=
  fileBytes_congr hinv hm rfl (Function.update_of_ne hne _ _) fun _ _ _ _ _ => rfl

theorem scrapInode_fileBytes (hinv : Inv k fs) (hn : (n : Nat) = k + 1) (hm : IsFile k m) :
    fileBytes (scrapInode fs n) m = fileBytes fs m := by
  have hne : m ≠ n := by
    rintro rfl
    have := hm.2
    omega
  exact fileBytes_congr hinv hm rfl (Function.update_of_ne hne _ _) fun _ _ _ _ _ => rfl

theorem newFile_fileBytes_self : fileBytes (newFile fs n k name) n = [] :=
  fileBytes_of_empty (by simp [newFile])

theorem newFile_fileBytes_other (hinv : Inv k fs) (hk : k < maxDirEntries)
    (hn : (n : Nat) = k + 1) (hm : IsFile k m) :
    fileBytes (newFile fs n k name) m = fileBytes fs m := by
  have hne : m ≠ n := by
    rintro rfl
    have := hm.2
    omega
  refine fileBytes_congr hinv hm (Function.update_of_ne hne _ _) (Function.update_of_ne hne _ _) ?_
  -- the new entry lies in block 0, which no file owns
  intro b hb x hlo _
  have hge := blockAddr_ge (hinv.own_ne_root hm.1 hb)
  rw [newFile_fsData, fillEntry_outside hk (hge.trans hlo)]

theorem writeAt_fileBytes_other (hinv : Inv k fs) (hw : WriteTarget fs n b)
    (hfit : (fs.openFileTable h).ofOffset + data.length ≤ blockSize)
    (hm : IsFile k m) (hne : m ≠ n) :
    fileBytes (writeAt fs h n b data) m = fileBytes fs m := by
  refine fileBytes_congr hinv hm rfl (Function.update_of_ne hne _ _) ?_
  intro c hc x hlo hhi
  have hcb : c ≠ b := by
    rintro rfl
    rcases hw with hown | ⟨-, hfirst⟩
    · exact hne (hinv.exclusive.inj m n c hc hown)
    · have hfree : fs.freeBlocks c = .free := (firstFit_eq_some.mp hfirst).1
      rw [hinv.exclusive.taken_of_own hc] at hfree
      cases hfree
  rw [writeAt_fsData]
  rcases blockAddr_disjoint hcb with hlt | hgt
  · exact Memory.store_of_lt (by omega)
  · exact Memory.store_of_ge (by omega)

/-- A write overwrites or extends the contents at the offset of the handle. -/
theorem writeAt_fileBytes_self (hinv : Inv k fs) (hn : IsFile k n)
    (hw : WriteTarget fs n b) (hpos : 0 < data.length)
    (hoff : (fs.openFileTable h).ofOffset ≤ (fs.inodeTable n).iSize) :
    fileBytes (writeAt fs h n b data) n =
      Memory.overwrite (fileBytes fs n) (fs.openFileTable h).ofOffset data := by
  have hself : (writeAt fs h n b data).inodeTable n =
      { fs.inodeTable n with
        iSize := max (fs.inodeTable n).iSize ((fs.openFileTable h).ofOffset + data.length)
        iDataBlock := (b : Nat) } := Function.update_self n _ _
  have hown : ownBlock (writeAt fs h n b data) n = some b := by
    rw [ownBlock_eq_some, hself]
    exact ⟨hinv.taken_of_isFile hn, lt_of_lt_of_le (by omega) (le_max_right _ _), rfl⟩
  have hbefore : fileBytes fs n =
      Memory.load fs.fsData (blockAddr b) (fs.inodeTable n).iSize := by
    rcases hw with hown' | ⟨hempty, -⟩
    · exact fileBytes_of_own hown'
    · rw [fileBytes_of_empty hempty, hempty, Memory.load_zero]
  rw [fileBytes_of_own hown, hself, writeAt_fsData, hbefore]
  exact Memory.load_store_window hoff

/-- A read inside the file delivers its bytes from the offset on. -/
theorem tfsRead_inPlace {fhandle : Int} {len : Nat} {bytes : List UInt8} (hinv : Inv k fs)
    (hn : IsFile k n) (hh : getOpenFileEntry fhandle = some h)
    (hnum : (fs.openFileTable h).ofInumber = (n : Nat))
    (hoff : (fs.openFileTable h).ofOffset ≤ (fs.inodeTable n).iSize)
    (hbytes : bytes = ((fileBytes fs n).drop (fs.openFileTable h).ofOffset).take len) :
    tfsRead fs fhandle len = some ((((bytes.length : Nat) : Int), bytes),
      moveHandle fs h ((fs.openFileTable h).ofOffset + bytes.length)) := by
  have hsize := (hinv.files n hn).2
  have hlength : bytes.length =
      min ((fs.inodeTable n).iSize - (fs.openFileTable h).ofOffset) len := by
    rw [hbytes, List.length_take, List.length_drop, length_fileBytes hinv hn, Nat.min_comm]
  have hclip : clipRead (fs.inodeTable n).iSize (fs.openFileTable h).ofOffset len =
      bytes.length := by
    rw [hlength, clipRead, wordSub_of_le hoff (lt_of_le_of_lt hsize (by decide))]
  have hiss : Issued fs fhandle := by
    intro i hi
    have hpos := hn.1
    rw [show i = h from Option.some.inj (hi.symm.trans hh), hnum]
    omega
  have hinode : ∀ {m : Fin inodeTableSize},
      (fs.openFileTable h).ofInumber = (m : Nat) → m = n := fun hm =>
    Fin.ext (Int.ofNat_inj.mp (hm.symm.trans hnum))
  cases hr : tfsRead fs fhandle len with
  | none =>
      rcases tfsRead_crash hr with ⟨j, m, b, hj, hm, hbig⟩
      have hjh : j = h := Option.some.inj (hj.symm.trans hh)
      subst hjh
      have hinside := copy_inside b (show (fs.openFileTable j).ofOffset + bytes.length ≤
        blockSize by omega)
      rw [hinode hm, hclip] at hbig
      omega
  | some p =>
      rcases p with ⟨⟨r, got⟩, fs'⟩
      rw [Option.some.injEq, Prod.mk.injEq, Prod.mk.injEq]
      cases tfsRead_cases hinv hiss hr with
      | badHandle hnone =>
          rw [hh] at hnone
          cases hnone
      | @nothing j m hj hm hmnum hzero =>
          have hjh : j = h := Option.some.inj (hj.symm.trans hh)
          subst hjh
          rw [hinode hmnum, hclip] at hzero
          have hnil : bytes = [] := List.length_eq_zero_iff.mp hzero
          have hstay : moveHandle fs j (fs.openFileTable j).ofOffset = fs := by
            rw [moveHandle, Function.update_eq_self]
          rw [hnil, List.length_nil, Nat.add_zero, hstay]
          exact ⟨⟨rfl, rfl⟩, rfl⟩
      | @noBlock j m hj hm hmnum hpos hnone =>
          -- a file with something to read owns a block
          have hjh : j = h := Option.some.inj (hj.symm.trans hh)
          subst hjh
          rw [hinode hmnum] at hnone hpos
          rw [hclip, hlength] at hpos
          rcases hinv.blocks n (hinv.taken_of_isFile hn) (by omega) with ⟨b, hb⟩
          rw [(ownBlock_eq_some.mp hb).2.2, dataBlockGet, index?_natCast] at hnone
          cases hnone
      | @got j m b count hj hm hmnum hcnt hpos hblock hfit =>
          have hjh : j = h := Option.some.inj (hj.symm.trans hh)
          subst hjh
          have hmn := hinode hmnum
          subst hmn
          rw [hclip] at hcnt
          have hown : ownBlock fs m = some b :=
            ownBlock_eq_some.mpr ⟨hinv.taken_of_isFile hn, by omega, hblock⟩
          have hload : bytes =
              Memory.load fs.fsData (blockAddr b + (fs.openFileTable j).ofOffset) count := by
            rw [hcnt, hlength, hbytes, fileBytes_of_own hown, Memory.drop_load]
            rcases Nat.le_total len ((fs.inodeTable m).iSize - (fs.openFileTable j).ofOffset) with
              hlo | hhi
            · rw [Memory.take_load hlo, Nat.min_eq_right hlo]
            · rw [Nat.min_eq_left hhi,
                List.take_of_length_le (by rw [Memory.length_load]; exact hhi)]
          rw [← hload, hcnt]
          exact ⟨⟨rfl, rfl⟩, rfl⟩

/-! ## The coupling -/

variable {a : Store} {i off : Nat} {c : Contents} {e : Handle}

/-- Handle `h` is closed on both sides, or open on the same file and offset. -/
def HandleSim (a : Store) (fs : FS) (h : Fin maxOpenFiles) : Prop :=
  (a.handles h = none ∧ fs.freeOpenFileEntries h = .free) ∨
    ∃ e, a.handles h = some e ∧ fs.freeOpenFileEntries h = .taken ∧
      fs.openFileTable h = ⟨(e.file + 1 : Nat), e.offset⟩ ∧ e.file < a.files.length ∧
        e.offset ≤ (a.contents e.file).bytes.length

/-- The abstract store and the tables describe the same files and handles. -/
structure Sim (a : Store) (fs : FS) : Prop where
  inv : Inv a.files.length fs
  file : ∀ (i : Nat) f (n : Fin inodeTableSize), (n : Nat) = i + 1 → a.files[i]? = some f →
    entryName fs.fsData i = f.name ∧ f.name.length < maxFileName ∧
      fileBytes fs n = f.contents.bytes
  handle : ∀ h, HandleSim a fs h

namespace Sim

/-- The i-node of file `i`. -/
theorem exists_inode (hsim : Sim a fs) (hi : i < a.files.length) :
    ∃ n : Fin inodeTableSize, (n : Nat) = i + 1 ∧ IsFile a.files.length n := by
  have hlt : i + 1 < inodeTableSize := by
    have := hsim.inv.files_lt
    omega
  exact ⟨inodeNo _ hlt, rfl, Nat.succ_pos i, hi⟩

theorem fileBytes_eq (hsim : Sim a fs) (hn : (n : Nat) = i + 1) (hi : i < a.files.length) :
    fileBytes fs n = (a.contents i).bytes := by
  have hfile := List.getElem?_eq_getElem hi
  rw [(hsim.file i _ n hn hfile).2.2, Store.contents_eq hfile]

/-- Sizes agree. -/
theorem size_eq (hsim : Sim a fs) (hn : (n : Nat) = i + 1) (hi : i < a.files.length) :
    (fs.inodeTable n).iSize = (a.contents i).bytes.length := by
  rw [← hsim.fileBytes_eq hn hi, length_fileBytes hsim.inv ⟨by omega, by omega⟩]

/-- The numbers of two different i-nodes differ. -/
theorem inode_ne {j : Nat} (hn : (n : Nat) = i + 1) (hm : (m : Nat) = j + 1) (hij : i ≠ j) :
    m ≠ n := by
  rintro rfl
  omega

/-- An open handle refers to a file of the store. -/
theorem handle_some (hsim : Sim a fs) (hh : a.handles h = some e) :
    fs.freeOpenFileEntries h = .taken ∧ fs.openFileTable h = ⟨(e.file + 1 : Nat), e.offset⟩ ∧
      e.file < a.files.length ∧ e.offset ≤ (a.contents e.file).bytes.length := by
  rcases hsim.handle h with ⟨hnone, -⟩ | ⟨e', he', hrest⟩
  · rw [hh] at hnone
    cases hnone
  · rw [hh] at he'
    rwa [Option.some.inj he']

theorem handle_none_iff (hsim : Sim a fs) (h : Fin maxOpenFiles) :
    a.handles h = none ↔ fs.freeOpenFileEntries h = .free := by
  rcases hsim.handle h with ⟨hnone, hfree⟩ | ⟨e, he, htaken, -⟩
  · exact iff_of_true hnone hfree
  · refine iff_of_false ?_ ?_
    · rw [he]
      exact fun hc => by cases hc
    · rw [htaken]
      exact fun hc => by cases hc

/-! ### Coupled updates -/

/-- New contents of file `i`, and nothing else. -/
theorem setContents (hsim : Sim a fs) (hn : (n : Nat) = i + 1) (hi : i < a.files.length)
    (hinv : Inv a.files.length fs')
    (hnames : ∀ j < a.files.length, entryName fs'.fsData j = entryName fs.fsData j)
    (hself : fileBytes fs' n = c.bytes)
    (hother : ∀ m, IsFile a.files.length m → m ≠ n → fileBytes fs' m = fileBytes fs m)
    (htable : fs'.openFileTable = fs.openFileTable)
    (hfree : fs'.freeOpenFileEntries = fs.freeOpenFileEntries)
    (hoff : ∀ h e, a.handles h = some e → e.file = i → e.offset ≤ c.bytes.length) :
    Sim (a.setContents i c) fs' := by
  refine ⟨by rw [Store.length_setContents]; exact hinv, ?_, ?_⟩
  · intro j f m hm hf
    rw [Store.getElem?_setContents] at hf
    by_cases hij : i = j
    · subst hij
      rw [if_pos rfl, List.getElem?_eq_getElem hi] at hf
      have hf' := Option.some.inj hf
      have hold := hsim.file i _ n hn (List.getElem?_eq_getElem hi)
      rw [show m = n from Fin.ext (hm.trans hn.symm), ← hf', hnames i hi]
      exact ⟨hold.1, hold.2.1, hself⟩
    · rw [if_neg hij] at hf
      have hj : j < a.files.length := (List.getElem?_eq_some_iff.mp hf).1
      rw [hnames j hj, hother m ⟨by omega, by omega⟩ (inode_ne hn hm hij)]
      exact hsim.file j f m hm hf
  · intro h
    rcases hsim.handle h with ⟨hnone, hf⟩ | ⟨e, he, ht, hentry, hlt, hle⟩
    · exact Or.inl ⟨hnone, by rw [hfree]; exact hf⟩
    · refine Or.inr ⟨e, he, by rw [hfree]; exact ht, by rw [htable]; exact hentry,
        by rw [Store.length_setContents]; exact hlt, ?_⟩
      by_cases hei : e.file = i
      · rw [hei, Store.contents_setContents hi]
        exact hoff h e he hei
      · rw [Store.contents_setContents_of_ne (Ne.symm hei)]
        exact hle

/-- A change of one handle, and nothing else. -/
theorem setHandle {v : Option Handle} (hsim : Sim a fs) (hinv : Inv a.files.length fs')
    (hdata : fs'.fsData = fs.fsData) (hinode : fs'.inodeTable = fs.inodeTable)
    (hts : fs'.freeinodeTs = fs.freeinodeTs)
    (hother : ∀ j, j ≠ h → fs'.openFileTable j = fs.openFileTable j ∧
      fs'.freeOpenFileEntries j = fs.freeOpenFileEntries j)
    (hself : HandleSim (a.setHandle h v) fs' h) : Sim (a.setHandle h v) fs' := by
  refine ⟨hinv, ?_, ?_⟩
  · intro j f m hm hf
    have hj : j < a.files.length := (List.getElem?_eq_some_iff.mp hf).1
    have hsame : fileBytes fs' m = fileBytes fs m :=
      fileBytes_congr hsim.inv ⟨by omega, by omega⟩ (by rw [hts]) (by rw [hinode])
        fun _ _ _ _ _ => by rw [hdata]
    rw [hdata, hsame]
    exact hsim.file j f m hm hf
  · intro j
    by_cases hj : j = h
    · exact hj ▸ hself
    · have hkeep : (a.setHandle h v).handles j = a.handles j := Function.update_of_ne hj _ _
      have hold := hsim.handle j
      unfold HandleSim at hold ⊢
      rw [hkeep, (hother j hj).1, (hother j hj).2]
      exact hold

/-- Opening file `i` at an offset within its contents. -/
theorem newHandle (hsim : Sim a fs) (hn : (n : Nat) = i + 1) (hi : i < a.files.length)
    (hoff : off ≤ (a.contents i).bytes.length) :
    Sim (a.setHandle h (some ⟨i, off⟩)) (newHandle fs h (n : Nat) off) := by
  have hsize := hsim.size_eq hn hi
  have hfile : IsFile a.files.length n := ⟨by omega, by omega⟩
  have hfits := (hsim.inv.files n hfile).2
  have hinside : off ≤ blockSize := by omega
  refine hsim.setHandle (newHandle_inv hsim.inv hfile (hinside.trans blockSize_le)) rfl rfl rfl
    ?_ ?_
  · intro j hj
    exact ⟨Function.update_of_ne hj _ _, Function.update_of_ne hj _ _⟩
  · refine Or.inr ⟨⟨i, off⟩, Function.update_self h _ _, Function.update_self h _ _, ?_, hi, hoff⟩
    rw [← hn]
    exact Function.update_self h _ _

theorem dropHandle (hsim : Sim a fs) : Sim (a.setHandle h none) (dropHandle fs h) := by
  refine hsim.setHandle (dropHandle_inv hsim.inv) rfl rfl rfl ?_ ?_
  · intro j hj
    exact ⟨rfl, Function.update_of_ne hj _ _⟩
  · exact Or.inl ⟨Function.update_self h _ _, Function.update_self h _ _⟩

/-- Moving an open handle within the contents of its file. -/
theorem moveHandle (hsim : Sim a fs) (off : Nat) (hh : a.handles h = some e)
    (hoff : off ≤ (a.contents e.file).bytes.length) :
    Sim (a.setHandle h (some ⟨e.file, off⟩)) (moveHandle fs h off) := by
  rcases hsim.handle_some hh with ⟨ht, hentry, hlt, -⟩
  rcases hsim.exists_inode hlt with ⟨n, hn, hfile⟩
  have hsize := hsim.size_eq hn hlt
  have hfits := (hsim.inv.files n hfile).2
  have hfe : FileEntry a.files.length (fs.openFileTable h) :=
    hsim.inv.fileEntry_of_taken ht
  have hinside : off ≤ blockSize := by omega
  refine hsim.setHandle (moveHandle_inv hsim.inv hfe (hinside.trans blockSize_le)) rfl rfl rfl
    ?_ ?_
  · intro j hj
    exact ⟨Function.update_of_ne hj _ _, rfl⟩
  · refine Or.inr ⟨⟨e.file, off⟩, Function.update_self h _ _, ht, ?_, hlt, hoff⟩
    have hself : (Part2.moveHandle fs h off).openFileTable h =
        { fs.openFileTable h with ofOffset := off } := Function.update_self h _ _
    rw [hself, hentry]

/-- A write of bytes that fit, through a handle at `e`. -/
theorem writeAt (hsim : Sim a fs) (hh : a.handles h = some e) (hn : (n : Nat) = e.file + 1)
    (hw : WriteTarget fs n b) (hpos : 0 < data.length)
    (hfit : e.offset + data.length ≤ blockSize)
    (hc : c.bytes = Memory.overwrite (a.contents e.file).bytes e.offset data) :
    Sim ((a.setContents e.file c).setHandle h (some ⟨e.file, e.offset + data.length⟩))
      (writeAt fs h n b data) := by
  rcases hsim.handle_some hh with ⟨ht, hentry, hlt, hle⟩
  have hfile : IsFile a.files.length n := ⟨by omega, by omega⟩
  have hnum : (fs.openFileTable h).ofInumber = (n : Nat) := by rw [hentry, hn]
  have hoffset : (fs.openFileTable h).ofOffset = e.offset := by rw [hentry]
  have hsize := hsim.size_eq hn hlt
  have hlen : c.bytes.length =
      max (a.contents e.file).bytes.length (e.offset + data.length) := by
    rw [hc, Memory.length_overwrite hle]
  rw [← hoffset] at hfit
  have hinv := writeAt_inv hsim.inv hfile hnum hw hpos hfit
  -- first the contents, with the handle left where it is, then the handle
  have hcontents : Sim (a.setContents e.file c)
      { Part2.writeAt fs h n b data with openFileTable := fs.openFileTable } := by
    refine hsim.setContents hn hlt { hinv with handles := hsim.inv.handles } ?_ ?_ ?_ rfl rfl ?_
    · intro j hj
      have hge : blockSize ≤ blockAddr b + (fs.openFileTable h).ofOffset :=
        (blockAddr_ge (hw.ne_root hsim.inv hfile.1)).trans (Nat.le_add_right _ _)
      simp only [writeAt_fsData]
      exact (entry_store_outside (hj.trans_le hsim.inv.files_le) hge).2
    · rw [hc, ← hsim.fileBytes_eq hn hlt, ← hoffset]
      exact writeAt_fileBytes_self hsim.inv hfile hw hpos (by omega)
    · intro m hm hne
      exact writeAt_fileBytes_other hsim.inv hw hfit hm hne
    · intro j e' hj heq
      have hle' := (hsim.handle_some hj).2.2.2
      rw [heq] at hle'
      rw [hlen]
      exact hle'.trans (le_max_left _ _)
  have hmoved := hcontents.moveHandle (e.offset + data.length) hh
    (by rw [Store.contents_setContents hlt, hlen]; exact le_max_right _ _)
  rw [← hoffset] at hmoved ⊢
  exact hmoved

/-- A write of nothing. -/
theorem writeNothing (hsim : Sim a fs) (hh : a.handles h = some e)
    (hc : c.bytes = (a.contents e.file).bytes) :
    Sim ((a.setContents e.file c).setHandle h (some ⟨e.file, e.offset⟩)) fs := by
  rcases hsim.handle_some hh with ⟨-, hentry, hlt, hle⟩
  rcases hsim.exists_inode hlt with ⟨n, hn, -⟩
  have hcontents : Sim (a.setContents e.file c) fs := by
    refine hsim.setContents hn hlt hsim.inv (fun _ _ => rfl) ?_ (fun _ _ _ => rfl) rfl rfl ?_
    · rw [hc, hsim.fileBytes_eq hn hlt]
    · intro j e' hj heq
      have hle' := (hsim.handle_some hj).2.2.2
      rw [heq] at hle'
      rwa [hc]
  have hstay : Part2.moveHandle fs h e.offset = fs := by
    unfold Part2.moveHandle
    rw [show { fs.openFileTable h with ofOffset := e.offset } = fs.openFileTable h by rw [hentry],
      Function.update_eq_self]
  have hmoved := hcontents.moveHandle e.offset hh
    (by rw [Store.contents_setContents hlt, hc]; exact hle)
  rwa [hstay] at hmoved

/-- Truncating file `i`, through which no handle is open. -/
theorem truncate {flags : BitVec 32} (hsim : Sim a fs) (hn : (n : Nat) = i + 1)
    (hi : i < a.files.length) (hflag : hasFlag flags tfsOTrunc = true)
    (hclosed : ∀ h e, a.handles h = some e → e.file ≠ i)
    (htrunc : Truncation fs n flags fs') : Sim (a.setContents i .empty) fs' := by
  have hfile : IsFile a.files.length n := ⟨by omega, by omega⟩
  have hoff : ∀ h e, a.handles h = some e → e.file = i →
      e.offset ≤ Contents.empty.bytes.length := fun h e he heq => absurd heq (hclosed h e he)
  cases htrunc with
  | kept hkept =>
      rcases hkept with hno | hempty
      · rw [hno] at hflag
        cases hflag
      · exact hsim.setContents hn hi hsim.inv (fun _ _ => rfl) (fileBytes_of_empty hempty)
          (fun _ _ _ => rfl) rfl rfl hoff
  | dropped _ hown =>
      exact hsim.setContents hn hi (dropBlock_inv hsim.inv hfile hown) (fun _ _ => rfl)
        dropBlock_fileBytes_self
        (fun m hm hne => dropBlock_fileBytes_other hsim.inv hm hne) rfl rfl hoff

/-- Creating a file. -/
theorem create {name : List UInt8} {path : CString} (hsim : Sim a fs)
    (hnew : name ∉ a.files.map Abstract.File.name) (hn : (n : Nat) = a.files.length + 1)
    (hk : a.files.length < maxDirEntries) (hname : path.bytes = name)
    (hshort : name.length < maxFileName) :
    Sim (a.create name hnew) (newFile fs n a.files.length path) := by
  have hlen : (a.create name hnew).files.length = a.files.length + 1 := by
    simp [Store.create]
  refine ⟨by rw [hlen]; exact newFile_inv hsim.inv hn hk, ?_, ?_⟩
  · intro j f m hm hf
    simp only [Store.create] at hf
    rw [newFile_fsData]
    by_cases hj : j < a.files.length
    · rw [List.getElem?_append_left hj] at hf
      rw [(fillEntry_other (Nat.ne_of_lt hj)).2,
        newFile_fileBytes_other hsim.inv hk hn ⟨by omega, by omega⟩]
      exact hsim.file j f m hm hf
    · -- the new file
      have hlast : j = a.files.length := by
        have hlt := (List.getElem?_eq_some_iff.mp hf).1
        simp only [List.length_append, List.length_singleton] at hlt
        omega
      subst hlast
      rw [List.getElem?_concat_length] at hf
      rw [← Option.some.inj hf, fillEntry_entryName, show m = n from Fin.ext (hm.trans hn.symm)]
      refine ⟨?_, hshort, newFile_fileBytes_self⟩
      rw [hname]
      exact List.take_of_length_le (Nat.le_of_lt_succ hshort)
  -- the files that handles refer to are the old ones
  · intro h
    rcases hsim.handle h with ⟨hnone, hfree⟩ | ⟨e, he, ht, hentry, hlt, hle⟩
    · exact Or.inl ⟨hnone, hfree⟩
    · refine Or.inr ⟨e, he, ht, hentry, by omega, ?_⟩
      have hsame : (a.create name hnew).contents e.file = a.contents e.file := by
        unfold Store.contents Store.create
        simp only
        rw [List.getElem?_append_left hlt]
      rw [hsame]
      exact hle

/-- A creation that was rolled back. -/
theorem scrapInode (hsim : Sim a fs) (hn : (n : Nat) = a.files.length + 1) :
    Sim a (scrapInode fs n) := by
  refine ⟨scrapInode_inv hsim.inv hn, ?_, hsim.handle⟩
  intro j f m hm hf
  have hj : j < a.files.length := (List.getElem?_eq_some_iff.mp hf).1
  rw [scrapInode_fileBytes hsim.inv hn ⟨by omega, by omega⟩]
  exact hsim.file j f m hm hf

end Sim

/-! ## Calls a client may make -/

/-- A path of '/' and 1 to 39 more bytes. -/
def GoodPath (path : CString) : Prop :=
  path.bytes.head? = some '/'.toUInt8 ∧ 2 ≤ path.strlen ∧ path.strlen ≤ 40

instance : DecidablePred GoodPath := fun _ => inferInstanceAs (Decidable (_ ∧ _ ∧ _))

/-- Paths are good; reads and writes use open handles and lengths below 2^63;
and no open truncates a file that has an open handle, or while all handles are
taken. -/
def Allowed (fs : FS) : Call → Prop
  | .lookup path => GoodPath path
  | .open path flags => GoodPath path ∧ (hasFlag flags tfsOTrunc = true →
      (∀ h, fs.freeOpenFileEntries h = .taken →
        (fs.openFileTable h).ofInumber ≠ tfsLookup fs path) ∧
      ∃ h, fs.freeOpenFileEntries h = .free)
  | .close _ => True
  | .write fhandle buffer => IsOpen fs fhandle ∧ buffer.length < 2 ^ 63
  | .read fhandle len => IsOpen fs fhandle ∧ len < 2 ^ 63

instance : ∀ fs c, Decidable (Allowed fs c)
  | _, .lookup _ => inferInstanceAs (Decidable (GoodPath _))
  | _, .open _ _ => inferInstanceAs (Decidable (_ ∧ (_ → (∀ _, _ → _ ≠ _) ∧ ∃ _, _)))
  | _, .close _ => inferInstanceAs (Decidable True)
  | _, .write _ _ => inferInstanceAs (Decidable (_ ∧ _))
  | _, .read _ _ => inferInstanceAs (Decidable (_ ∧ _))

variable {path : CString} {flags : BitVec 32} {fhandle : Int}

theorem GoodPath.valid (hp : GoodPath path) : validPathname path = true := by
  rcases hp with ⟨hhead, hlo, -⟩
  have hlen : 1 < path.strlen := hlo
  simp [validPathname, hlen, hhead]

theorem GoodPath.tail_length (hp : GoodPath path) :
    1 ≤ path.tail.bytes.length ∧ path.tail.bytes.length < maxFileName := by
  rcases hp with ⟨-, hlo, hhi⟩
  simp only [CString.strlen, CString.tail, List.length_tail, maxFileName] at *
  omega

theorem GoodPath.tail_take (hp : GoodPath path) :
    path.tail.bytes.take maxFileName = path.tail.bytes :=
  List.take_of_length_le hp.tail_length.2.le

theorem GoodPath.ne_nil (hp : GoodPath path) : path.bytes ≠ [] ∧ path.tail.bytes ≠ [] := by
  have hpos := hp.tail_length.1
  constructor
  · intro hnil
    simp [CString.tail, hnil] at hpos
  · intro hnil
    simp [hnil] at hpos

namespace Sim

/-! ### Lookup -/

/-- The path names the file found. -/
theorem names_of_find (hsim : Sim a fs) (hp : GoodPath path)
    (hfind : a.find path.tail.bytes = some i) :
    ∃ n : Fin inodeTableSize, (n : Nat) = i + 1 ∧ i < a.files.length ∧ Names fs path n := by
  rcases Store.find_eq_some.mp hfind with ⟨⟨f, hf, hname⟩, hfirst⟩
  have hi : i < a.files.length := (List.getElem?_eq_some_iff.mp hf).1
  rcases hsim.exists_inode hi with ⟨n, hn, -⟩
  refine ⟨n, hn, hi, hp.valid, ?_, ?_⟩
  · rw [hp.tail_take, show (n : Nat) - 1 = i by omega, (hsim.file i f n hn hf).1, hname]
  · intro j hj
    have hjlt : j < a.files.length := by omega
    rcases hsim.exists_inode hjlt with ⟨m, hm, -⟩
    have hfile := List.getElem?_eq_getElem hjlt
    rw [hp.tail_take, (hsim.file j _ m hm hfile).1]
    exact hfirst j _ (by omega) hfile

theorem unnamed_of_find (hsim : Sim a fs) (hp : GoodPath path)
    (hfind : a.find path.tail.bytes = none) : Unnamed a.files.length fs path := by
  intro _ j hj
  rcases hsim.exists_inode hj with ⟨m, hm, -⟩
  have hfile := List.getElem?_eq_getElem hj
  rw [hp.tail_take, (hsim.file j _ m hm hfile).1]
  exact Store.find_eq_none.mp hfind j _ hfile

theorem lookup_eq (hsim : Sim a fs) (hp : GoodPath path) :
    tfsLookup fs path = a.lookup path.tail.bytes := by
  unfold Store.lookup
  cases hfind : a.find path.tail.bytes with
  | none => exact tfsLookup_of_unnamed hsim.inv (hsim.unnamed_of_find hp hfind)
  | some i =>
      rcases hsim.names_of_find hp hfind with ⟨n, hn, hi, hnames⟩
      rw [tfsLookup_of_names hsim.inv ⟨by omega, by omega⟩ hnames, hn]

/-! ### Open and close -/

/-- The two scans for a free handle agree. -/
theorem firstFit_handle (hsim : Sim a fs) :
    (firstFit fun h => (a.handles h).isNone) =
      firstFit fun h => fs.freeOpenFileEntries h = .free := by
  apply firstFit_congr
  intro h
  rw [Option.isNone_iff_eq_none]
  exact hsim.handle_none_iff h

theorem addHandle (hsim : Sim a fs) (hn : (n : Nat) = i + 1) (hi : i < a.files.length)
    (hoff : off ≤ (a.contents i).bytes.length)
    (hadd : addToOpenFileTable fs (n : Nat) off = (r, fs')) :
    ∃ a', a.addHandle ⟨i, off⟩ = (r, a') ∧ Sim a' fs' := by
  unfold Store.addHandle
  rw [hsim.firstFit_handle]
  rcases addToOpenFileTable_cases hadd with ⟨rfl, rfl, hall⟩ | ⟨j, rfl, rfl, hfit⟩
  · have hnone : (firstFit fun h => fs'.freeOpenFileEntries h = .free) = none := by
      rw [firstFit_eq_none]
      intro j
      exact not_free_iff.mpr (hall j)
    rw [hnone]
    exact ⟨a, rfl, hsim⟩
  · rw [hfit]
    exact ⟨_, rfl, hsim.newHandle hn hi hoff⟩

theorem openFile (hsim : Sim a fs) (hok : Allowed fs (.open path flags)) :
    ∃ r a' fs', a.openFile path.tail.bytes flags = (r, a') ∧
      tfsOpen fs path flags = some (r, fs') ∧ Sim a' fs' := by
  rcases hok with ⟨hp, htrunc⟩
  rcases tfsOpen_returns hsim.inv path flags hp.ne_nil.1 with ⟨r, fs', hopen, hstep⟩
  unfold Store.openFile
  cases hfind : a.find path.tail.bytes with
  | some i =>
      rcases hsim.names_of_find hp hfind with ⟨n, hn, hi, hnames⟩
      have hfile : IsFile a.files.length n := ⟨by omega, by omega⟩
      have hlookup := tfsLookup_of_names hsim.inv hfile hnames
      have hnamed : ¬ Unnamed a.files.length fs path := by
        intro hun
        rw [tfsLookup_of_unnamed hsim.inv hun] at hlookup
        omega
      cases hstep with
      | absent hun _ => exact absurd hun hnamed
      | scrapped hun _ _ _ => exact absurd hun hnamed
      | created hun _ _ _ _ _ => exact absurd hun hnamed
      | @found n' fs1 _ _ hn' hnames' hstep hadd =>
          have hnn : n' = n := by
            have heq := (tfsLookup_of_names hsim.inv hn' hnames').symm.trans hlookup
            exact Fin.ext (Int.ofNat_inj.mp heq)
          subst hnn
          -- the truncation first, then the handle
          have hsim1 : Sim (if hasFlag flags tfsOTrunc then a.setContents i .empty else a) fs1 := by
            by_cases hflag : hasFlag flags tfsOTrunc = true
            · rw [if_pos hflag]
              refine hsim.truncate hn hi hflag ?_ hstep
              intro h e he heq
              rcases hsim.handle_some he with ⟨ht, hentry, -⟩
              apply (htrunc hflag).1 h ht
              rw [hentry, heq, hlookup, hn]
            · rw [if_neg hflag]
              cases hstep with
              | kept _ => exact hsim
              | dropped hyes _ => exact absurd hyes hflag
          have hi1 : i < (if hasFlag flags tfsOTrunc then a.setContents i .empty
              else a).files.length := by
            split
            · rw [Store.length_setContents]
              exact hi
            · exact hi
          have hsize := hsim1.size_eq hn hi1
          rw [openOffset, hsize] at hadd
          rcases hsim1.addHandle hn hi1 (by split <;> omega) hadd with ⟨a', ha', hsim'⟩
          exact ⟨r, a', fs', ha', hopen, hsim'⟩
  | none =>
      have hun := hsim.unnamed_of_find hp hfind
      have hnew := Store.not_mem_of_find hfind
      rw [dif_neg hnew]
      cases hstep with
      | absent _ hno =>
          rw [if_neg (by rw [hno]; exact fun hc => by cases hc.1)]
          exact ⟨-1, a, fs, rfl, hopen, hsim⟩
      | found hn hnames _ _ =>
          have hlookup := tfsLookup_of_names hsim.inv hn hnames
          rw [tfsLookup_of_unnamed hsim.inv hun] at hlookup
          omega
      | @scrapped n _ _ hn hwhy =>
          have hfull : ¬ a.files.length < maxDirEntries := by
            rcases hwhy with hfull | hempty
            · omega
            · exact absurd hempty hp.ne_nil.2
          rw [if_neg fun hc => hfull hc.2]
          exact ⟨-1, a, _, rfl, hopen, hsim.scrapInode hn⟩
      | @created n _ _ _ hyes hn hk _ hadd =>
          rw [if_pos ⟨hyes, hk⟩]
          have hsim1 := hsim.create hnew hn hk (show path.tail.bytes = path.tail.bytes from rfl)
            hp.tail_length.2
          have hlen : (a.create path.tail.bytes hnew).files.length = a.files.length + 1 := by
            simp [Store.create]
          rcases hsim1.addHandle hn (by omega) (Nat.zero_le _) hadd with ⟨a', ha', hsim'⟩
          exact ⟨r, a', fs', ha', hopen, hsim'⟩

/-- An open handle on the concrete side is one on the abstract side. -/
theorem handle_of_isOpen (hsim : Sim a fs) (hopen : IsOpen fs fhandle) :
    ∃ h e, getOpenFileEntry fhandle = some h ∧ a.handles h = some e ∧
      a.handle fhandle = some (h, e) := by
  rcases hopen with ⟨h, hh, ht⟩
  rcases hsim.handle h with ⟨-, hfree⟩ | ⟨e, he, -⟩
  · rw [ht] at hfree
    cases hfree
  · refine ⟨h, e, hh, he, ?_⟩
    unfold Store.handle
    rw [show index? maxOpenFiles fhandle = some h from hh]
    simp only [he, Option.map_some]

theorem handle_of_not_isOpen (hsim : Sim a fs) (hclosed : ¬ IsOpen fs fhandle) :
    a.handle fhandle = none := by
  unfold Store.handle
  cases hh : index? maxOpenFiles fhandle with
  | none => rfl
  | some h =>
      rcases hsim.handle h with ⟨hnone, -⟩ | ⟨e, -, ht, -⟩
      · simp only [hnone, Option.map_none]
      · exact absurd ⟨h, hh, ht⟩ hclosed

theorem close (hsim : Sim a fs) (fhandle : Int) :
    (a.close fhandle).1 = (tfsClose fs fhandle).1 ∧
      Sim (a.close fhandle).2 (tfsClose fs fhandle).2 := by
  unfold Store.close
  rcases tfsClose_cases fs fhandle with ⟨j, hj, ht, hclose⟩ | ⟨hclosed, hclose⟩
  · rcases hsim.handle_of_isOpen ⟨j, hj, ht⟩ with ⟨h, e, hh, -, hhandle⟩
    have hjh : h = j := Option.some.inj (hh.symm.trans hj)
    rw [hhandle, hclose, hjh]
    exact ⟨rfl, hsim.dropHandle⟩
  · rw [hsim.handle_of_not_isOpen hclosed, hclose]
    exact ⟨rfl, hsim⟩

/-! ### Write and read -/

/-- The offset of an open handle lies within its file, which fits in a block. -/
theorem offset_le (hsim : Sim a fs) (hh : a.handles h = some e) :
    (fs.openFileTable h).ofOffset = e.offset ∧
      e.offset ≤ (a.contents e.file).bytes.length ∧
        (a.contents e.file).bytes.length ≤ blockSize := by
  rcases hsim.handle_some hh with ⟨-, hentry, -, hle⟩
  exact ⟨by rw [hentry], hle, (a.contents e.file).fits⟩

theorem write (hsim : Sim a fs) {buffer : List UInt8}
    (hok : Allowed fs (.write fhandle buffer)) :
    ∃ r a' fs', a.write fhandle buffer = (r, a') ∧
      tfsWrite fs fhandle buffer = some (r, fs') ∧ Sim a' fs' := by
  rcases hok with ⟨hopen, hshort⟩
  rcases hsim.handle_of_isOpen hopen with ⟨h, e, hh, he, hhandle⟩
  rcases hsim.offset_le he with ⟨hoffset, hle, hfits⟩
  have hclip : clipWrite buffer.length (fs.openFileTable h).ofOffset =
      min buffer.length (blockSize - e.offset) := by
    rw [hoffset]
    apply clipWrite_of_lt (hle.trans hfits)
    simp only [blockSize, wordSize] at *
    omega
  -- clipping the buffer is what the abstract write does
  have hbytes : ((a.contents e.file).write e.offset buffer).bytes =
      Memory.overwrite (a.contents e.file).bytes e.offset
        (buffer.take (min buffer.length (blockSize - e.offset))) := by
    have htake : buffer.take (blockSize - e.offset) =
        buffer.take (min buffer.length (blockSize - e.offset)) := by
      rw [Nat.min_comm, ← List.take_eq_take_min]
    rw [← htake]
    rfl
  unfold Store.write
  simp only [hhandle]
  cases hw : tfsWrite fs fhandle buffer with
  | none =>
      rcases tfsWrite_crash hw with ⟨j, hj, hbig⟩
      rw [show j = h from Option.some.inj (hj.symm.trans hh), hclip, hoffset] at hbig
      omega
  | some p =>
      rcases p with ⟨r, fs'⟩
      cases tfsWrite_cases hsim.inv (hopen.issued hsim.inv) hw with
      | badHandle hnone =>
          rw [hh] at hnone
          cases hnone
      | nothing hj hzero =>
          rw [show _ = h from Option.some.inj (hj.symm.trans hh), hclip] at hzero
          rw [hzero] at hbytes
          simp only [hzero, Nat.add_zero]
          refine ⟨0, _, fs, rfl, rfl, ?_⟩
          have hsame : ((a.contents e.file).write e.offset buffer).bytes =
              (a.contents e.file).bytes := by
            rw [hbytes]
            simp [Memory.overwrite]
          exact hsim.writeNothing he hsame
      | @wrote j n b data hj hn hnum hdata hlen hpos hfit hwt =>
          have hjh : j = h := Option.some.inj (hj.symm.trans hh)
          subst hjh
          rw [hclip] at hdata hlen
          have hn' : (n : Nat) = e.file + 1 := by
            have hentry := (hsim.handle_some he).2.1
            rw [hentry] at hnum
            exact (Int.ofNat_inj.mp hnum).symm
          rw [hoffset] at hfit
          have hsim' := hsim.writeAt he hn' hwt hpos hfit (by rw [hbytes, hdata])
          refine ⟨_, _, _, ?_, rfl, hsim'⟩
          rw [hlen]

theorem read (hsim : Sim a fs) {len : Nat} (hok : Allowed fs (.read fhandle len)) :
    ∃ r bytes a' fs', a.read fhandle len = ((r, bytes), a') ∧
      tfsRead fs fhandle len = some ((r, bytes), fs') ∧ Sim a' fs' := by
  rcases hok with ⟨hopen, hshort⟩
  rcases hsim.handle_of_isOpen hopen with ⟨h, e, hh, he, hhandle⟩
  rcases hsim.offset_le he with ⟨hoffset, hle, hfits⟩
  rcases hsim.handle_some he with ⟨-, hentry, hlt, -⟩
  rcases hsim.exists_inode hlt with ⟨n, hn, hfile⟩
  have hnum : (fs.openFileTable h).ofInumber = (n : Nat) := by rw [hentry, hn]
  have hin : (fs.openFileTable h).ofOffset ≤ (fs.inodeTable n).iSize := by
    rw [hoffset, hsim.size_eq hn hlt]
    exact hle
  have hcount : (((a.contents e.file).bytes.drop e.offset).take len).length ≤
      (a.contents e.file).bytes.length - e.offset := by
    rw [List.length_take, List.length_drop]
    exact Nat.min_le_right _ _
  have hread := tfsRead_inPlace hsim.inv hfile hh hnum hin (Eq.refl (List.take len _))
  rw [hsim.fileBytes_eq hn hlt, hoffset] at hread
  have hmoved := hsim.moveHandle
    (e.offset + (((a.contents e.file).bytes.drop e.offset).take len).length) he (by omega)
  unfold Store.read
  simp only [hhandle]
  exact ⟨_, _, _, _, rfl, hread, hmoved⟩

end Sim

/-! ## The refinement -/

/-- After `tfs_init` both sides are empty. -/
theorem sim_init : Sim Abstract.machine.init machine.init := by
  refine ⟨init_inv, ?_, ?_⟩
  · intro i f n _ hf
    cases hf
  · intro h
    left
    refine ⟨rfl, ?_⟩
    rw [machine_init]
    rfl

/-- Every allowed call gives the same result on both sides. -/
theorem sim_step (a : Store) (fs : FS) (c : Call) (hsim : Sim a fs) (hok : Allowed fs c) :
    ∃ r a' fs', Abstract.machine.exec a c = some (r, a') ∧ machine.exec fs c = some (r, fs') ∧
      Sim a' fs' := by
  have habs : ∀ a, Abstract.machine.exec a c = some (a.exec c) := fun _ => rfl
  have hexec : machine.exec fs c = exec fs c := rfl
  rw [habs, hexec]
  cases c with
  | lookup path =>
      refine ⟨_, a, fs, rfl, ?_, hsim⟩
      rw [exec, hsim.lookup_eq hok]
  | «open» path flags =>
      rcases hsim.openFile hok with ⟨r, a', fs', ha, hfs, hsim'⟩
      refine ⟨⟨r, []⟩, a', fs', ?_, ?_, hsim'⟩
      · rw [Store.exec, ha]
      · rw [exec, hfs]
        rfl
  | close fhandle =>
      rcases hsim.close fhandle with ⟨hr, hsim'⟩
      refine ⟨_, _, _, rfl, ?_, hsim'⟩
      rw [exec, hr]
  | write fhandle buffer =>
      rcases hsim.write hok with ⟨r, a', fs', ha, hfs, hsim'⟩
      refine ⟨⟨r, []⟩, a', fs', ?_, ?_, hsim'⟩
      · rw [Store.exec, ha]
      · rw [exec, hfs]
        rfl
  | read fhandle len =>
      rcases hsim.read hok with ⟨r, bytes, a', fs', ha, hfs, hsim'⟩
      refine ⟨⟨r, bytes⟩, a', fs', ?_, ?_, hsim'⟩
      · rw [Store.exec, ha]
      · rw [exec, hfs]
        rfl

/-- Every sequence of allowed calls after `tfs_init` returns, with the results of
the abstract file system. -/
theorem refines_abstract (calls : List Call) (h : machine.Admits Allowed machine.init calls) :
    ∃ results store fs, Abstract.machine.run Abstract.machine.init calls = some (results, store) ∧
      machine.run machine.init calls = some (results, fs) := by
  rcases Machine.run_refines Abstract.machine machine Sim Allowed sim_step calls _ _ sim_init h with
    ⟨results, store, fs, habs, hrun, -⟩
  exact ⟨results, store, fs, habs, hrun⟩

/-- A run through two handles of one file: the second one reads what the first
wrote, and a truncation after both are closed empties the file. -/
theorem refines_abstract_two_handles : ∃ results store fs,
    Abstract.machine.run Abstract.machine.init
        [.open pathA tfsOCreat, .open pathA 0, .write 0 [1, 2, 3], .read 1 2, .close 0, .close 1,
          .open pathA tfsOTrunc, .read 0 5] = some (results, store) ∧
      machine.run machine.init
        [.open pathA tfsOCreat, .open pathA 0, .write 0 [1, 2, 3], .read 1 2, .close 0, .close 1,
          .open pathA tfsOTrunc, .read 0 5] = some (results, fs) :=
  refines_abstract _ (by decide +kernel)

end TecnicoFS.Part2
