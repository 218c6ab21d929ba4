import TecnicoFS.Part1.Coupling

/-!
# Part 1: the code refines the abstract file system in runs in chunks

Every call of a run in chunks gives the same result on both sides and keeps them coupled. A chunk
that divides all offsets of its file never runs over the end of a block: where it is a multiple of
the block size, all offsets are aligned.
-/

namespace TecnicoFS.Part1

open Threads Threads.Prog
open Part2 (Call Ret validPathname hasFlag tfsOCreat tfsOTrunc tfsOAppend blockSize dataBlocks
  inodeTableSize maxOpenFiles maxFileName maxDirEntries EntryMatches)
open Abstract (File Store OpenHandle InChunks Chunked Complete fileBlocks maxBlocks)

variable {chunk : List UInt8 → Nat} {a : Store} {fs fs' : FS} {n : Fin inodeTableSize}
  {h : Fin maxOpenFiles} {f : File} {o : OpenHandle} {off i len : Nat} {fhandle : Int}
  {buffer : List UInt8} {path : CString} {flags : BitVec 32}

/-! ## Handles -/

namespace Sim

/-- A change of handle `h`, which refers to a file afterwards, and of nothing else. -/
theorem setHandle {v : Option Part2.Abstract.Handle} (hsim : Sim a fs) (hs : SameStore fs fs')
    (hn : (fs'.openFileTable h).ofInumber = ((n : Nat) : Int)) (hfile : IsFile fs n)
    (hother : ∀ k, k ≠ h → fs'.openFileTable k = fs.openFileTable k ∧
      fs'.freeOpenFileEntries k = fs.freeOpenFileEntries k)
    (hself : HandleSim (a.setHandle h v) fs' h) : Sim (a.setHandle h v) fs' where
  consistent := by
    refine hsim.consistent.of_core hs.states (fun m _ => by rw [hs.inodes]) hs.data hs.marks ?_
    intro k
    by_cases hk : k = h
    · exact Or.inr ⟨n, hk ▸ hn, hs.isFile.mpr hfile⟩
    · refine (hsim.consistent.handles k).congr (by rw [(hother k hk).1]) ?_ fun m => hs.isFile.mpr
      rw [(hother k hk).2]
      exact id
  inodes m := by
    rw [hs.states]
    exact hsim.inodes m
  files i f m hm hf := (hsim.files i f m hm hf).sameStore hs
  numbers i := by
    rw [(entry_congr (fun x (_ : x < blockSize) => congrFun hs.data x) i).1]
    exact hsim.numbers i
  names i f hf := by
    rw [(entry_congr (fun x (_ : x < blockSize) => congrFun hs.data x) i).2]
    exact hsim.names i f hf
  marks b := by
    rw [hs.marks]
    exact hsim.marks b
  handles k := by
    by_cases hk : k = h
    · exact hk ▸ hself
    · rw [HandleSim, Store.setHandle_of_ne hk, (hother k hk).1, (hother k hk).2]
      exact hsim.handles k

theorem handle_none_iff (hsim : Sim a fs) (h : Fin maxOpenFiles) :
    (a.handles h).isNone ↔ fs.freeOpenFileEntries h = .free := by
  rcases hsim.handles h with ⟨hnone, hfree⟩ | ⟨e, he, htaken, -⟩
  · rw [hnone, hfree]
    simp
  · rw [he, htaken]
    simp

/-- The first free handle is given out on both sides. -/
theorem addHandle (hsim : Sim a fs) (hn : (n : Nat) = i + 1) (hf : a.files[i]? = some f)
    (off : Nat) : ∃ fs', (addToOpenFileTable ((n : Nat) : Int) off).eval fs =
        some ((a.addHandle ⟨i, off⟩).1, fs') ∧ Sim (a.addHandle ⟨i, off⟩).2 fs' := by
  have hscan := firstFit_congr hsim.handle_none_iff
  rcases Store.addHandle_cases a ⟨i, off⟩ with ⟨hnone, hadd⟩ | ⟨h, hfirst, hadd⟩
  · rw [hadd]
    rcases addToOpenFileTable_first fs ((n : Nat) : Int) off with ⟨h, hh, -⟩ | ⟨-, heval⟩
    · rw [hscan, hh] at hnone
      cases hnone
    · exact ⟨fs, heval, hsim⟩
  · rw [hadd]
    rcases addToOpenFileTable_first fs ((n : Nat) : Int) off with ⟨k, hk, heval⟩ | ⟨hfull, -⟩
    · rw [hscan, hk] at hfirst
      cases hfirst
      refine ⟨_, heval, hsim.setHandle (n := n) ⟨rfl, rfl, rfl, rfl⟩ ?_
        (hsim.files i f n hn hf).isFile (fun k hk => ⟨?_, ?_⟩)
        (Or.inr ⟨_, Store.setHandle_self, ?_, ?_⟩)⟩
      · simp [FS.give]
      · simp [FS.give, hk]
      · simp [FS.give, hk]
      · simp [FS.give]
      · simp [FS.give, hn]
    · rw [hscan, firstFit_eq_some] at hfirst
      rw [hfull h] at hfirst
      cases hfirst.1

end Sim

/-! ## Reads and writes -/

/-- A chunk that divides the offset fits into a block, or the offset is aligned. -/
theorem aligned_of_dvd (hdvd : len ∣ off) : len % blockSize ≠ 0 ∨ off % blockSize = 0 := by
  by_cases hlen : len % blockSize = 0
  · exact Or.inr (Nat.mod_eq_zero_of_dvd ((Nat.dvd_of_mod_eq_zero hlen).trans hdvd))
  · exact Or.inl hlen

namespace Sim

variable (hsim : Sim a fs) (hchunks : InChunks chunk a) (ho : a.opened fhandle = some o)

include hsim hchunks ho

/-- A write that starts at a block if it is of whole blocks. -/
theorem writeAny (hbuffer : buffer ≠ [])
    (hreg : buffer.length % blockSize ≠ 0 ∨ o.offset % blockSize = 0)
    (hlimit : o.offset + buffer.length ≤ maxFileSize)
    (hblocks : (a.write fhandle buffer).2.blocks ≤ maxBlocks) :
    ∃ fs', (tfsWrite fhandle buffer).eval fs = some ((buffer.length : Int), fs') ∧
      Sim (a.write fhandle buffer).2 fs' := by
  rcases hsim.opened hchunks.count ho with ⟨n, hn, htaken, hentry, hf⟩
  rcases hchunks.opened ho with ⟨hok, -, hle⟩
  rcases Store.opened_eq_some.mp ho with ⟨hhandle, -, hfile⟩
  have hword : o.offset + buffer.length < wordSize := by
    simp only [maxFileSize, maxFileBlocks, maxDirectBlocks, tableSize, blockSize] at hlimit
    simp only [wordSize]
    omega
  have hplan := planned_eq hword hreg
  -- the blocks the write takes are those the file grows by
  have hlacks := hf.lacks hle hlimit
  have hgrown : (a.setBytes o.number (Memory.overwrite o.file.bytes o.offset buffer)).blocks +
      fileBlocks o.file.bytes.length =
        a.blocks + fileBlocks (Memory.overwrite o.file.bytes o.offset buffer).length :=
    Store.blocks_setBytes hfile
  rw [Memory.length_overwrite hle] at hgrown
  rw [Store.write_opened ho] at hblocks ⊢
  have hused : (a.setBytes o.number (Memory.overwrite o.file.bytes o.offset buffer)).blocks =
      a.blocks + lacks fs n (o.offset / blockSize) (stopBlock (o.offset + buffer.length)) := by
    omega
  have hroom : a.blocks + lacks fs n (o.offset / blockSize)
      (stopBlock (o.offset + buffer.length)) ≤ maxBlocks := hused ▸ hblocks
  have hoff : (fs.openFileTable o.handle).ofOffset = o.offset := by rw [hentry]
  have hwrite : WriteOk fs o.handle n buffer := by
    constructor
    · exact hbuffer
    · rw [hoff]
      intro hone
      exact hreg.resolve_left (by rw [hone]; decide)
    · rw [hoff]
      exact hlimit
    · rw [hoff, hplan]
      exact hsim.harmless hroom
  rcases hwrite.eval hsim.consistent (by rw [hentry]) hf.isFile hoff with
    ⟨count, fs', heval, hended, hspill, hc'⟩
  rw [hplan] at heval hended
  have hfree : (freeList fs).length = dataBlocks - a.blocks := by
    rw [hsim.freeList_eq, List.length_drop, List.length_finRange]
  have hcount : count = buffer.length := by
    rw [hended.enough, hfree]
    simp only [maxBlocks, dataBlocks] at hroom ⊢
    omega
  subst hcount
  rw [if_pos rfl, ← hhandle] at heval
  have hwrote := hended.wrote
  rw [List.take_length] at hwrote
  refine ⟨fs', heval, hsim.wrote hn hfile hok.limit hle hbuffer (by rw [hentry]) htaken hwrote
    hspill hc' hended.touched fun b => ?_⟩
  rw [← mem_freeList, hended.free rfl, hsim.freeList_eq, List.drop_drop, hused]
  exact mem_drop_finRange

theorem write (hpos : 0 < chunk o.file.name) (hlen : buffer.length = chunk o.file.name)
    (hlimit : o.offset + buffer.length ≤ maxFileSize)
    (hblocks : (a.write fhandle buffer).2.blocks ≤ maxBlocks) :
    ∃ fs', (tfsWrite fhandle buffer).eval fs = some ((buffer.length : Int), fs') ∧
      Sim (a.write fhandle buffer).2 fs' := by
  refine hsim.writeAny hchunks ho ?_ (aligned_of_dvd ?_) hlimit hblocks
  · rw [← List.length_pos_iff, hlen]
    exact hpos
  · rw [hlen]
    exact (hchunks.opened ho).2.1

/-- A read that starts at a block if it is of whole blocks. -/
theorem readUpTo (hreg : 0 < min (o.file.bytes.length - o.offset) len →
      min (o.file.bytes.length - o.offset) len % blockSize ≠ 0 ∨ o.offset % blockSize = 0) :
    ∃ fs', (tfsRead fhandle len).eval fs = some ((a.readUpTo fhandle len).1, fs') ∧
      Sim (a.readUpTo fhandle len).2 fs' := by
  rcases hsim.opened hchunks.count ho with ⟨n, hn, htaken, hentry, hf⟩
  rcases hchunks.opened ho with ⟨hok, -, hle⟩
  rcases Store.opened_eq_some.mp ho with ⟨hhandle, -, hfile⟩
  have hoff : (fs.openFileTable o.handle).ofOffset = o.offset := by rw [hentry]
  have hrefers : (fs.openFileTable o.handle).ofInumber = ((n : Nat) : Int) := by rw [hentry]
  have hsize : (fs.inodeTable n).iSize ≤ maxFileSize := by
    rw [hf.size]
    exact hok.limit
  have hcount : fs.toRead o.handle n len = min (o.file.bytes.length - o.offset) len := by
    rw [toRead_of_le hoff (by rw [hf.size]; exact hle) hsize, hf.size]
  have hreads : ReadsContents fs o.handle n len := by
    refine ReadOk.readsContents hrefers hoff hsize ?_
    rw [hcount]
    by_cases hzero : min (o.file.bytes.length - o.offset) len = 0
    · exact .nothing hzero
    -- the file has the blocks up to its end
    · refine .blocks (by rw [hf.size]; exact hle) (hreg (Nat.pos_of_ne_zero hzero))
        fun j _ hj hnone => ?_
      have hheld : j < stopBlock (fs.inodeTable n).iSize := by
        rw [hf.size]
        simp only [stopBlock, blockSize] at hj ⊢
        omega
      rcases blockAt_of_slot (hsim.consistent.layout.file hf.isFile)
        (hf.mapped hok.limit j hheld) with ⟨b, hb⟩
      rw [hnone] at hb
      cases hb
  rcases hreads with ⟨bytes, heval, hbytes⟩
  -- the bytes of the abstract file, from the offset on
  have hsame : bytes = (o.file.bytes.drop o.offset).take len := by
    rw [hoff, hf.contents, ← List.map_drop, ← List.map_take] at hbytes
    exact List.map_injective_iff.mpr (Option.some_injective _) hbytes
  rw [← hhandle, hsame, hoff] at heval
  rw [heval, Store.readUpTo, ho]
  refine ⟨_, rfl, hsim.setHandle (n := n) ⟨rfl, rfl, rfl, rfl⟩ ?_ hf.isFile
    (fun k hk => ⟨?_, rfl⟩) (Or.inr ⟨_, Store.setHandle_self, htaken, ?_⟩)⟩
  · simp [FS.seek, hrefers]
  · simp [FS.seek, hk]
  · simp [FS.seek, hrefers, hn]

/-- In chunks, a read finds a whole chunk or nothing. -/
theorem read (hlen : len = chunk o.file.name) :
    ∃ fs', (tfsRead fhandle len).eval fs = some ((a.read fhandle len).1, fs') ∧
      Sim (a.read fhandle len).2 fs' := by
  rw [hchunks.read_eq ho hlen]
  refine hsim.readUpTo hchunks ho fun hpos => ?_
  have hend : o.offset ≠ o.file.bytes.length := by omega
  have hroom := hchunks.room ho hend
  have hall : min (o.file.bytes.length - o.offset) len = len := by omega
  rw [hall]
  exact aligned_of_dvd (hlen ▸ (hchunks.opened ho).2.1)

theorem close : ∃ fs', (tfsClose fhandle).eval fs = some ((a.close fhandle).1, fs') ∧
    Sim (a.close fhandle).2 fs' := by
  rcases hsim.opened hchunks.count ho with ⟨n, hn, htaken, hentry, hf⟩
  rcases Store.opened_eq_some.mp ho with ⟨hhandle, -, -⟩
  rw [Store.close, ho, hhandle]
  refine ⟨_, tfsClose_taken htaken, hsim.setHandle (n := n) ⟨rfl, rfl, rfl, rfl⟩ ?_ hf.isFile
    (fun k hk => ⟨rfl, ?_⟩) (Or.inl ⟨Store.setHandle_self, ?_⟩)⟩
  · simp [hentry]
  · simp [hk]
  · simp

end Sim

/-! ## Paths -/

namespace Sim

variable (hsim : Sim a fs)

include hsim

/-- An entry has a name exactly where the file of the store has it. -/
theorem entryMatches (j : Fin maxDirEntries) : EntryMatches fs.fsData path.tail j ↔
    ∃ f, a.files[(j : Nat)]? = some f ∧ f.name = path.tail.bytes.take maxFileName := by
  have hnumber : Part2.dInumber fs.fsData (Part2.rootEntry j) = entryNumber fs j := rfl
  have hname : Part2.entryName fs.fsData j = entryName fs j := rfl
  rw [EntryMatches, hnumber, hname, hsim.numbers]
  by_cases hj : (j : Nat) < a.files.length
  · have hf := List.getElem?_eq_getElem hj
    rw [if_pos hj, hsim.names j _ hf, hf]
    constructor
    · rintro ⟨-, hsame⟩
      exact ⟨_, rfl, hsame⟩
    · rintro ⟨f, heq, hsame⟩
      cases heq
      exact ⟨by omega, hsame⟩
  · rw [if_neg hj, List.getElem?_eq_none (not_lt.mp hj)]
    simp

/-- A path is looked up on both sides alike. -/
theorem lookup (hchunks : InChunks chunk a) (hpath : PathFits path) :
    (tfsLookup path).eval fs = some (a.lookup path.tail.bytes, fs) := by
  have hshort := (Abstract.PathFits.tail hpath).2
  rcases tfsLookup_named hsim.consistent hpath.1 with ⟨r, heval, ⟨rfl, hnone⟩ | ⟨j, hmatch, rfl⟩⟩
  · rw [heval, Store.lookup, Store.find_eq_none.mpr]
    intro hmem
    rcases List.mem_map.mp hmem with ⟨f, hf, hname⟩
    rcases List.getElem?_of_mem hf with ⟨i, hi⟩
    have hlt : i < maxDirEntries :=
      lt_of_lt_of_le (List.getElem?_eq_some_iff.mp hi).1 hchunks.count
    refine hnone ⟨i, hlt⟩ ((hsim.entryMatches _).mpr ⟨f, hi, ?_⟩)
    rw [hname, List.take_of_length_le hshort.le]
  · rcases (hsim.entryMatches j).mp hmatch with ⟨f, hf, hname⟩
    rw [List.take_of_length_le hshort.le] at hname
    have hfind := Store.find_of_name hchunks.distinct hf
    rw [hname] at hfind
    rw [heval, hsim.numbers, if_pos (List.getElem?_eq_some_iff.mp hf).1, Store.lookup, hfind]

/-- A file is created on both sides. -/
theorem create (hshort : path.tail.bytes.length < maxFileName)
    (hn : (n : Nat) = a.files.length + 1) {j : Fin maxDirEntries} (hj : (j : Nat) = a.files.length) :
    Sim (a.create path.tail.bytes) ((fs.newFile n).enter j n path.tail) := by
  have hc := hsim.consistent
  have hfree : fs.freeinodeTs n = .free := (hsim.inodes n).mpr (by omega)
  have hlength : (a.create path.tail.bytes).files.length = a.files.length + 1 := by
    rw [Store.create, List.length_append, List.length_singleton]
  -- a file of the new store is an old one or the one created
  have hold : ∀ (i : Nat) g, (a.create path.tail.bytes).files[i]? = some g →
      a.files[i]? = some g ∨ i = a.files.length ∧ g = ⟨path.tail.bytes, []⟩ := by
    intro i g hg
    rw [Store.create, List.getElem?_append] at hg
    split at hg
    · exact Or.inl hg
    · rw [List.getElem?_singleton] at hg
      split at hg
      · cases hg
        exact Or.inr ⟨by omega, rfl⟩
      · cases hg
  refine ⟨enter_consistent hc hfree, ?_, ?_, ?_, ?_, ?_, hsim.handles⟩
  · intro m
    rw [hlength]
    by_cases hm : m = n
    · subst hm
      simp [FS.newFile, FS.enter, hn]
    · have hne : (m : Nat) ≠ n := fun heq => hm (Fin.ext heq)
      have hstate : ((fs.newFile n).enter j n path.tail).freeinodeTs m = fs.freeinodeTs m := by
        simp [FS.newFile, FS.enter, hm]
      rw [hstate, hsim.inodes]
      omega
  · intro i g m hm hg
    rcases hold i g hg with hg | ⟨rfl, rfl⟩
    · have hlt := (List.getElem?_eq_some_iff.mp hg).1
      have hmn : m ≠ n := by
        rintro rfl
        omega
      have hf := hsim.files i g m hm hg
      exact hf.congr (enter_isFile.mpr (Or.inr hf.isFile))
        (by rw [enter_inodeTable, newFile_other hmn]) (enter_ref_other hc hf.isFile hmn)
        fun b hb => enter_sameBlock (hc.ne_zero hf.isFile hb)
    -- the new file is empty and has no blocks
    · have hmn : m = n := Fin.ext (hm.trans hn.symm)
      subst hmn
      refine ⟨enter_isFile.mpr (Or.inl rfl), ?_, fun r => ?_⟩
      · simp [FS.contents, FS.newFile, FS.enter]
      · rw [enter_ref_self]
        refine iff_of_false (by simp) ?_
        rintro (⟨-, hstop⟩ | ⟨k, -, hk, -⟩)
        · change maxDirectBlocks < stopBlock 0 at hstop
          exact absurd hstop (by decide)
        · exact absurd hk (by simp [stopBlock, blockSize])
  · intro k
    rw [enter_entryNumber, hlength, hsim.numbers]
    by_cases hk : k = j
    · subst hk
      rw [if_pos rfl, if_pos (by omega), hn, hj]
    · have hne : (k : Nat) ≠ a.files.length := fun heq => hk (Fin.ext (heq.trans hj.symm))
      rw [if_neg hk]
      exact if_congr (by omega) rfl rfl
  · intro k g hg
    rw [enter_entryName]
    rcases hold k g hg with hg | ⟨hk, rfl⟩
    · have hlt := (List.getElem?_eq_some_iff.mp hg).1
      have hne : k ≠ j := by
        rintro rfl
        omega
      rw [if_neg hne]
      exact hsim.names k g hg
    · rw [if_pos (Fin.ext (hk.trans hj.symm))]
      simp only [maxFileName] at hshort
      exact List.take_of_length_le (by omega)
  · intro b
    rw [Store.blocks_create]
    exact hsim.marks b

/-- `tfs_open` takes the i-node and the entry behind those of the files that are there. -/
theorem openCreated (hpath : PathFits path) (hcount : a.files.length < maxDirEntries) :
    ∃ (n : Fin inodeTableSize) (fs' : FS), (n : Nat) = a.files.length + 1 ∧
      (openCreated path).eval fs = some (some (((n : Nat) : Int), 0), fs') ∧
      Sim (a.create path.tail.bytes) fs' := by
  rcases Abstract.PathFits.tail hpath with ⟨hnamed, hshort⟩
  rcases exists_inode hcount.le with ⟨m, hm⟩
  have hfree : fs.freeinodeTs m = .free := (hsim.inodes m).mpr (by omega)
  have hempty : entryNumber fs ⟨a.files.length, hcount⟩ = -1 := by
    rw [hsim.numbers, if_neg (lt_irrefl _)]
  rcases openCreated_eval hsim.consistent path with ⟨n, j, hn, hj, heval⟩ | ⟨hfull, -⟩
  · rcases firstFit_eq_some.mp hn with ⟨hnfree, hnfirst⟩
    rcases firstFit_eq_some.mp hj with ⟨hjempty, hjfirst⟩
    have hnlt := (hsim.inodes n).mp hnfree
    have hnle : n ≤ m := not_lt.mp fun hlt => hnfirst m hlt hfree
    have hnval : (n : Nat) = a.files.length + 1 := by
      have hle : (n : Nat) ≤ m := hnle
      omega
    have hjval : (j : Nat) = a.files.length := by
      have hle : j ≤ ⟨a.files.length, hcount⟩ := not_lt.mp fun hlt => hjfirst _ hlt hempty
      have hle' : (j : Nat) ≤ a.files.length := hle
      rw [hsim.numbers] at hjempty
      by_contra hne
      rw [if_pos (by omega)] at hjempty
      omega
    exact ⟨n, _, hnval, heval, hsim.create hshort hnval hjval⟩
  · rcases hfull with hfull | hnone | hfull
    · rw [hfull m] at hfree
      cases hfree
    · exact absurd (List.length_eq_zero_iff.mp hnone) hnamed
    · exact absurd hempty (hfull _)

theorem openAt (hchunks : InChunks chunk a) (hpath : PathFits path)
    (htrunc : hasFlag flags tfsOTrunc = false)
    (hcount : hasFlag flags tfsOCreat = true → a.find path.tail.bytes = none →
      a.files.length < maxDirEntries) :
    ∃ fs', (tfsOpen path flags).eval fs = some ((a.openAt path.tail.bytes flags).1, fs') ∧
      Sim (a.openAt path.tail.bytes flags).2 fs' := by
  have hlookup := hsim.lookup hchunks hpath
  rw [Store.lookup] at hlookup
  rw [Store.openAt]
  cases hfind : a.find path.tail.bytes with
  | some i =>
      rw [hfind] at hlookup
      rcases Store.find_eq_some hfind with ⟨f, hf, -⟩
      have hi := (List.getElem?_eq_some_iff.mp hf).1
      rcases exists_inode (hi.le.trans hchunks.count) with ⟨n, hn⟩
      dsimp only at hlookup ⊢
      rw [← hn] at hlookup
      have hstart : startOffset fs n flags =
          if hasFlag flags tfsOAppend then (a.bytes i).length else 0 := by
        rw [startOffset, (hsim.files i f n hn hf).size, Store.bytes_eq hf]
      rw [tfsOpen_found hlookup htrunc, hstart]
      exact hsim.addHandle hn hf _
  | none =>
      rw [hfind] at hlookup
      by_cases hcreat : hasFlag flags tfsOCreat = true
      · rcases hsim.openCreated hpath (hcount hcreat hfind) with ⟨n, fs₁, hn, heval, hsim₁⟩
        have hnew : (a.create path.tail.bytes).files[a.files.length]? =
            some ⟨path.tail.bytes, []⟩ := by
          simp [Store.create]
        rw [tfsOpen_created hpath.1 hlookup hcreat heval]
        dsimp only
        rw [if_pos hcreat]
        exact hsim₁.addHandle hn hnew 0
      · rw [tfsOpen_absent hpath.1 hlookup hcreat]
        dsimp only
        rw [if_neg hcreat]
        exact ⟨fs, rfl, hsim⟩

theorem «open» (hchunks : InChunks chunk a) (hpath : PathFits path)
    (htrunc : hasFlag flags tfsOTrunc = false) (happend : hasFlag flags tfsOAppend = false)
    (hcount : hasFlag flags tfsOCreat = true → a.find path.tail.bytes = none →
      a.files.length < maxDirEntries) :
    ∃ fs', (tfsOpen path flags).eval fs = some ((a.openFile path.tail.bytes flags).1, fs') ∧
      Sim (a.openFile path.tail.bytes flags).2 fs' := by
  rw [← Store.openAt_eq happend]
  exact hsim.openAt hchunks hpath htrunc hcount

end Sim

/-! ## Runs -/

theorem sim_init : Sim .empty initialFS where
  consistent := initialFS_consistent
  inodes n := by
    by_cases hn : n = 0
    · subst hn
      simp [initialFS, Store.empty]
    · have hpos : 0 < (n : Nat) := Nat.pos_of_ne_zero fun heq => hn (Fin.ext heq)
      simp [initialFS, boot, hn, Store.empty, hpos]
  files i f n _ hf := by cases hf
  numbers i := by
    exact (entryNumber_initial i).trans (if_neg (Nat.not_lt_zero _)).symm
  names i f hf := by cases hf
  marks b := by
    by_cases hb : b = 0
    · subst hb
      simp [initialFS, Store.empty, Store.blocks]
    · have hpos : 0 < (b : Nat) := Nat.pos_of_ne_zero fun heq => hb (Fin.ext heq)
      simp [initialFS, boot, hb, Store.empty, Store.blocks]
      omega
  handles h := Or.inl ⟨rfl, rfl⟩

/-- Every call of a run in chunks gives the same result on both sides. -/
theorem exec_sim (hchunk : ∀ name, 0 < chunk name) (hsim : Sim a fs) (hchunks : InChunks chunk a)
    {c : Call} (hok : Chunked chunk a c) :
    ∃ fs', machine.exec fs c = some ((a.exec c).1, fs') ∧ Sim (a.exec c).2 fs' := by
  change ∃ fs', (exec c).eval fs = some ((a.exec c).1, fs') ∧ Sim (a.exec c).2 fs'
  cases c with
  | lookup path =>
      refine ⟨fs, ?_, hsim⟩
      rw [exec, bind_eq, eval_bind, hsim.lookup hchunks hok]
      rfl
  | «open» path flags =>
      rcases hok with ⟨hpath, htrunc, happend, hcount⟩
      rcases hsim.open hchunks hpath htrunc happend hcount with ⟨fs', heval, hsim'⟩
      refine ⟨fs', ?_, hsim'⟩
      rw [exec, bind_eq, eval_bind, heval]
      rfl
  | close fhandle =>
      rcases Option.isSome_iff_exists.mp hok with ⟨o, ho⟩
      rcases hsim.close hchunks ho with ⟨fs', heval, hsim'⟩
      refine ⟨fs', ?_, hsim'⟩
      rw [exec, bind_eq, eval_bind, heval]
      rfl
  | write fhandle buffer =>
      rcases hok with ⟨hopen, hwrite⟩
      rcases Option.isSome_iff_exists.mp hopen with ⟨o, ho⟩
      rcases hwrite o ho with ⟨hlen, hlimit, hblocks⟩
      rcases hsim.write hchunks ho (hchunk _) hlen hlimit hblocks with ⟨fs', heval, hsim'⟩
      refine ⟨fs', ?_, hsim'⟩
      rw [exec, bind_eq, eval_bind, heval, Store.exec, Store.write_opened ho]
      rfl
  | read fhandle len =>
      rcases hok with ⟨hopen, hread⟩
      rcases Option.isSome_iff_exists.mp hopen with ⟨o, ho⟩
      rcases hsim.read hchunks ho (hread o ho) with ⟨fs', heval, hsim'⟩
      refine ⟨fs', ?_, hsim'⟩
      rw [exec, bind_eq, eval_bind, heval]
      rfl

/-- Every run in chunks from `tfs_init` returns, with the results of the abstract file system. Every
write returns its length and every read delivers a whole chunk or nothing, and the blocks that the
run allocated are those that the abstract file system counts. -/
theorem chunked_runs (chunk : List UInt8 → Nat) (hchunk : ∀ name, 0 < chunk name)
    (calls : List Call)
    (hcalls : Abstract.machine.Admits (Chunked chunk) Abstract.machine.init calls) :
    ∃ results store fs,
      Abstract.machine.run Abstract.machine.init calls = some (results, store) ∧
      machine.run machine.init calls = some (results, fs) ∧
      List.Forall₂ Complete calls results ∧
      ∀ b, fs.freeBlocks b = .free ↔ store.blocks ≤ (b : Nat) := by
  have hstep : ∀ (fs : FS) (a : Store) c, InChunks chunk a ∧ Sim a fs → Chunked chunk a c →
      ∃ r fs' a', machine.exec fs c = some (r, fs') ∧ Abstract.machine.exec a c = some (r, a') ∧
        InChunks chunk a' ∧ Sim a' fs' := by
    rintro fs a c ⟨hchunks, hsim⟩ hok
    rcases exec_sim hchunk hsim hchunks hok with ⟨fs', heval, hsim'⟩
    exact ⟨_, fs', _, heval, rfl, (Abstract.exec_chunked hchunks hok).1, hsim'⟩
  have hinit : InChunks chunk Abstract.machine.init ∧ Sim Abstract.machine.init machine.init := by
    rw [machine_init]
    exact ⟨Abstract.inChunks_empty, sim_init⟩
  rcases Machine.run_refines machine Abstract.machine _ (Chunked chunk) hstep calls _ _ hinit hcalls
    with ⟨results, fs, store, hrun, habs, -, hsim⟩
  refine ⟨results, store, fs, habs, hrun, ?_, hsim.marks⟩
  refine Machine.run_forall (I := InChunks chunk) ?_ hinit.1 hcalls habs
  intro a c r a' hchunks hok hexec
  have hnext := Abstract.exec_chunked hchunks hok
  rw [show a.exec c = (r, a') from Option.some.inj hexec] at hnext
  exact hnext

/-- Two files in chunks of 3 and of 1000 bytes. The second write on the latter runs into its second
block, the last read is at the end of the file. -/
theorem chunked_runs_two_files : ∃ results store fs,
    Abstract.machine.run Abstract.machine.init
        [.open pathA tfsOCreat, .open pathB tfsOCreat, .write 0 [1, 2, 3],
          .write 1 (List.replicate 1000 7), .write 1 (List.replicate 1000 8), .open pathA 0,
          .write 0 [4, 5, 6], .read 2 3, .close 0, .read 2 3, .read 2 3] = some (results, store) ∧
      machine.run machine.init
        [.open pathA tfsOCreat, .open pathB tfsOCreat, .write 0 [1, 2, 3],
          .write 1 (List.replicate 1000 7), .write 1 (List.replicate 1000 8), .open pathA 0,
          .write 0 [4, 5, 6], .read 2 3, .close 0, .read 2 3, .read 2 3] = some (results, fs) ∧
      List.Forall₂ Complete
        [.open pathA tfsOCreat, .open pathB tfsOCreat, .write 0 [1, 2, 3],
          .write 1 (List.replicate 1000 7), .write 1 (List.replicate 1000 8), .open pathA 0,
          .write 0 [4, 5, 6], .read 2 3, .close 0, .read 2 3, .read 2 3] results ∧
      ∀ b, fs.freeBlocks b = .free ↔ store.blocks ≤ (b : Nat) :=
  chunked_runs (fun name => if name = [97] then 3 else 1000)
    (fun name => by split <;> decide) _ (by decide +kernel)

end TecnicoFS.Part1
