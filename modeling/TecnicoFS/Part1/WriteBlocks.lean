import TecnicoFS.Part1.FileBlocks

/-!
# Part 1: how a write finds its blocks

The part of the loop of `tfs_write` that finds block `i`, run by one thread alone. A place that
holds a block is used as it is, a place that holds none takes the first free block
(`Filled`), and the call fails where there is none left (`Lacking`). `needs` counts the blocks
that are taken on the way.
-/

namespace TecnicoFS.Part1

open Threads Threads.Prog
open Part2 (blockSize dataBlocks inodeTableSize maxOpenFiles blockAddr dataBlockGet)

variable {fs fs' : FS} {n : Fin inodeTableSize} {h : Fin maxOpenFiles} {off : Nat} {r : Ref}
  {b : Fin dataBlocks}

/-- The place holds a block, which it took if it held none. -/
def Filled (n : Fin inodeTableSize) (r : Ref) (fs fs' : FS) : Prop :=
  (fs.ref n r ≠ -1 ∧ fs' = fs) ∨ ∃ b bs, freeList fs = b :: bs ∧ Takes n r b fs fs'

/-- The place holds no block and there is none left. -/
def Lacking (fs : FS) (n : Fin inodeTableSize) (r : Ref) : Prop :=
  fs.ref n r = -1 ∧ freeList fs = []

/-! ## What is known of a place that is filled -/

theorem Filled.layout (hf : Filled n r fs fs') (hl : FileLayout fs n) : FileLayout fs' n := by
  rcases hf with ⟨-, rfl⟩ | ⟨b, bs, -, ht⟩
  · exact hl
  · exact ht.layout hl

theorem Filled.present (hf : Filled n r fs fs') : fs'.ref n r ≠ -1 := by
  rcases hf with ⟨hr, rfl⟩ | ⟨b, bs, -, ht⟩
  · exact hr
  · rw [ht.ref_self]
    exact natCast_ne_absent b

theorem Filled.ref_of_ne {r' : Ref} (hf : Filled n r fs fs') (hr : r' ≠ r) :
    fs'.ref n r' = fs.ref n r' := by
  rcases hf with ⟨-, rfl⟩ | ⟨b, bs, -, ht⟩
  · rfl
  · exact ht.ref_of_ne hr

theorem Filled.changed {r' : Ref} (hf : Filled n r fs fs')
    (hr : fs'.ref n r' ≠ fs.ref n r') : r' = r := by
  by_contra hne
  exact hr (hf.ref_of_ne hne)

theorem Filled.free (hf : Filled n r fs fs') :
    freeList fs' = (freeList fs).drop (if fs.ref n r = -1 then 1 else 0) := by
  rcases hf with ⟨hr, rfl⟩ | ⟨b, bs, hfree, ht⟩
  · rw [if_neg hr, List.drop_zero]
  · rw [if_pos ht.absent, freeList_take hfree ht.marks, hfree, List.drop_one, List.tail_cons]

theorem Filled.length (hf : Filled n r fs fs') :
    (freeList fs').length + (if fs.ref n r = -1 then 1 else 0) = (freeList fs).length := by
  rcases hf with ⟨hr, rfl⟩ | ⟨b, bs, hfree, ht⟩
  · rw [if_neg hr, Nat.add_zero]
  · rw [if_pos ht.absent, freeList_take hfree ht.marks, hfree, List.length_cons]

theorem Wrote.refl (hl : FileLayout fs n) (hoff : (fs.openFileTable h).ofOffset = off) :
    Wrote h n off [] fs fs where
  rest := SameRest.refl n fs
  handle := by
    rw [← hoff]
    exact (Function.update_eq_self h fs.openFileTable).symm
  size := rfl
  kept _ _ := rfl
  fresh r b habsent hb := absurd (hb.symm.trans habsent) (natCast_ne_absent b)
  marks b := by
    refine ⟨Or.inl, ?_⟩
    rintro (htaken | ⟨r, hr⟩)
    · exact htaken
    · exact hl.taken_of_ref hr
  written p hlo hhi := by
    rw [List.length_nil] at hhi
    omega
  bytes _ _ _ := rfl
  frame b _ _ := SameBlock.refl fs b

theorem Filled.wrote (hf : Filled n r fs fs') (hl : FileLayout fs n)
    (hspill : ∀ c, fs.Owns n c → ¬ Spilled fs fs' n c)
    (hoff : (fs.openFileTable h).ofOffset = off) : Wrote h n off [] fs fs' := by
  rcases hf with ⟨-, rfl⟩ | ⟨b, bs, -, ht⟩
  · exact Wrote.refl hl hoff
  · exact ht.wrote hl hspill hoff

theorem not_spilled_of_table (htable : fs'.ref n .table = fs.ref n .table) :
    ¬ Spilled fs fs' n b := by
  rintro ⟨habsent, t, ht, -⟩
  rw [htable, habsent] at ht
  exact natCast_ne_absent t ht.symm

/-! ## The three kinds of places -/

theorem setInode_self : fs.setInode n (fs.inodeTable n) = fs := by
  rw [FS.setInode, Function.update_eq_self]

theorem dataBlockGet_ref (hl : FileLayout fs n) (hr : fs.ref n r ≠ -1) :
    ∃ b, dataBlockGet (fs.ref n r) = some b := by
  rcases hl.taken r hr with ⟨b, hb, -⟩
  exact ⟨b, by rw [hb, dataBlockGet_natCast]⟩

/-- A direct slot takes a block. -/
theorem direct_takes {i : Fin maxDirectBlocks} (habsent : fs.ref n (.direct i) = -1)
    (hfree : fs.freeBlocks b = .free) :
    Takes n (.direct i) b fs ((fs.setBlockState b .taken).setInode n
      { fs.inodeTable n with
        iDataBlock := Function.update (fs.inodeTable n).iDataBlock i ((b : Nat) : Int) }) where
  absent := habsent
  free := hfree
  ref := by
    funext r
    cases r with
    | direct j =>
        by_cases hj : j = i
        · subst hj
          simp [FS.ref]
        · have hne : Ref.direct j ≠ Ref.direct i := fun heq => hj (Ref.direct.inj heq)
          rw [Function.update_of_ne hne]
          simp [FS.ref, hj]
    | table => simp [FS.ref]
    | entry k =>
        simp only [FS.ref, FS.setInode_inodeTable, Function.update_self, ne_eq, reduceCtorEq,
          not_false_eq_true, Function.update_of_ne]
        rfl
  marks := rfl
  rest := ⟨fun m hm => by simp [hm], by simp, rfl, rfl, rfl⟩
  handle := rfl
  size := by simp
  same c _ _ := SameBlock.refl fs c

theorem writeDirect_eval (fs : FS) (n : Fin inodeTableSize) (i : Fin maxDirectBlocks) :
    (∃ fs', (writeDirect n i).eval fs = some (dataBlockGet (fs'.ref n (.direct i)), fs') ∧
      Filled n (.direct i) fs fs') ∨
    (writeDirect n i).eval fs = some (none, fs) ∧ Lacking fs n (.direct i) := by
  rw [writeDirect]
  simp only [bind_eq, pure_eq, eval_read]
  by_cases habsent : (fs.inodeTable n).iDataBlock i = -1
  · rw [if_pos habsent, eval_bind]
    cases hfree : freeList fs with
    | nil =>
        right
        refine ⟨?_, habsent, hfree⟩
        rw [dataBlockAlloc_full hfree, Option.bind_some]
        simp only [eval_modify, ret_bind]
        rw [← habsent, Function.update_eq_self, setInode_self]
        simp [habsent]
    | cons b bs =>
        left
        have hb : fs.freeBlocks b = .free :=
          mem_freeList.mp (hfree ▸ List.mem_cons_self)
        have ht := direct_takes habsent hb
        refine ⟨_, ?_, Or.inr ⟨b, bs, hfree, ht⟩⟩
        rw [dataBlockAlloc_first hfree, Option.bind_some]
        simp only [eval_modify, ret_bind]
        rw [decide_eq_true (natCast_ne_absent b), if_pos rfl]
        rfl
  · left
    refine ⟨fs, ?_, Or.inl ⟨habsent, rfl⟩⟩
    rw [if_neg habsent]
    rfl

/-- The file takes an indirect block, with -1 in its first `count` numbers. -/
def FS.growTable (fs : FS) (n : Fin inodeTableSize) (b : Fin dataBlocks) (count : Nat) : FS :=
  ((fs.setBlockState b .taken).setInode n
    { fs.inodeTable n with iIndirectDataBlock := ((b : Nat) : Int) }).setData
      (Memory.store fs.fsData (blockAddr b) (List.replicate (4 * count) 255))

theorem growTable_table {count : Nat} :
    (fs.growTable n b count).ref n .table = ((b : Nat) : Int) := by
  simp [FS.ref, FS.growTable]

theorem table_takes {count : Nat} (hcount : 4 * tableSize ≤ 4 * count ∧ 4 * count ≤ 4 * blockSize)
    (habsent : fs.ref n .table = -1) (hfree : fs.freeBlocks b = .free) :
    Takes n .table b fs (fs.growTable n b count) where
  absent := habsent
  free := hfree
  ref := by
    have hminus : leInt (List.replicate 4 255) = -1 := by decide
    funext r
    cases r with
    | direct j => simp [FS.ref, FS.growTable]
    | table => simp [FS.ref, FS.growTable]
    | entry k =>
        have hk := k.isLt
        -- the numbers of the new indirect block are all -1
        rw [Function.update_of_ne (by simp), ref_entry_absent habsent]
        simp only [FS.ref, FS.growTable, FS.setData_inodeTable, FS.setInode_inodeTable,
          Function.update_self, dataBlockGet_natCast, FS.intAt, FS.fsData_setData, tableAddr]
        rw [Memory.load_store_replicate _ _ _ (by omega), hminus]
  marks := rfl
  rest := ⟨fun m hm => by simp [FS.growTable, hm], by simp [FS.growTable], rfl, rfl, rfl⟩
  handle := rfl
  size := by simp [FS.growTable]
  same c hc hspill := by
    have htable : (fs.growTable n b count).ref n .table = ((b : Nat) : Int) := growTable_table
    have hne : (c : Nat) ≠ b := by
      intro heq
      exact hc (htable.trans (by rw [heq]))
    intro x hx
    have hlen : (List.replicate (4 * count) (255 : UInt8)).length = 4 * count :=
      List.length_replicate
    simp only [FS.growTable, FS.setData_fsData, blockAddr, blockSize] at hx hcount ⊢
    rcases Nat.lt_or_gt_of_ne hne with hlt | hlt
    · exact Memory.store_of_lt (by omega)
    -- the loop runs over the four blocks behind the new one
    · refine Memory.store_of_ge ?_
      have hfar : (b : Nat) + 3 < c := by
        by_contra hnear
        exact hspill ⟨habsent, b, htable, hlt, by omega⟩
      omega

/-- The file gets the first free block for its indirect block, where filling that stays inside
`fs_data`. -/
theorem writeIndirectTable_new {t : Fin dataBlocks} {ts : List (Fin dataBlocks)}
    (habsent : fs.ref n .table = -1) (hfree : freeList fs = t :: ts)
    (hin : (t : Nat) + 3 < dataBlocks) : (writeIndirectTable n).eval fs =
      some (some t, fs.growTable n t (blockSize - maxDirectBlocks)) := by
  have hfill : blockAddr t + 4 * (blockSize - maxDirectBlocks) ≤ fsDataSize := by
    simp only [blockAddr, fsDataSize, blockSize, dataBlocks, maxDirectBlocks] at hin ⊢
    omega
  have hnone : (fs.inodeTable n).iIndirectDataBlock = -1 := habsent
  rw [writeIndirectTable]
  simp only [bind_eq, pure_eq, eval_read, hnone]
  generalize blockSize - maxDirectBlocks = count at hfill ⊢
  rw [if_pos trivial, eval_bind, dataBlockAlloc_first hfree, Option.bind_some, dataBlockGet_natCast]
  simp only [eval_modify]
  rw [eval_bind, clearIndirect_eval, if_pos hfill, Option.bind_some]
  have hget : dataBlockGet ((fs.growTable n t count).inodeTable n).iIndirectDataBlock = some t :=
    index?_eq_some.mpr growTable_table
  simp only [ret_bind, if_pos]
  change some (dataBlockGet ((fs.growTable n t count).inodeTable n).iIndirectDataBlock,
    fs.growTable n t count) = _
  rw [hget]

/-- Where the file gets an indirect block, filling that block stays inside `fs_data`. -/
theorem writeIndirectTable_eval
    (hsafe : ∀ t ts, fs.ref n .table = -1 → freeList fs = t :: ts → (t : Nat) + 3 < dataBlocks) :
    (∃ fs', (writeIndirectTable n).eval fs = some (dataBlockGet (fs'.ref n .table), fs') ∧
      Filled n .table fs fs') ∨
    (writeIndirectTable n).eval fs = some (none, fs) ∧ Lacking fs n .table := by
  have hcount : 4 * tableSize ≤ 4 * (blockSize - maxDirectBlocks) ∧
      4 * (blockSize - maxDirectBlocks) ≤ 4 * blockSize := by decide
  by_cases habsent : fs.ref n .table = -1
  · have hnone : (fs.inodeTable n).iIndirectDataBlock = -1 := habsent
    cases hfree : freeList fs with
    | nil =>
        right
        refine ⟨?_, habsent, hfree⟩
        rw [writeIndirectTable]
        simp only [bind_eq, pure_eq, eval_read]
        generalize blockSize - maxDirectBlocks = count
        rw [if_pos hnone, eval_bind, dataBlockAlloc_full hfree, Option.bind_some,
          dataBlockGet_absent]
        simp only [eval_modify, ret_bind]
        rw [← hnone, setInode_self]
        rfl
    | cons t ts =>
        left
        have ht : fs.freeBlocks t = .free := mem_freeList.mp (hfree ▸ List.mem_cons_self)
        refine ⟨_, ?_, Or.inr ⟨t, ts, hfree, table_takes hcount habsent ht⟩⟩
        rw [writeIndirectTable_new habsent hfree (hsafe t ts habsent hfree), growTable_table,
          dataBlockGet_natCast]
  · left
    refine ⟨fs, ?_, Or.inl ⟨habsent, rfl⟩⟩
    rw [writeIndirectTable]
    simp only [bind_eq, pure_eq, eval_read]
    generalize blockSize - maxDirectBlocks = count
    rw [if_neg (show ¬ (fs.inodeTable n).iIndirectDataBlock = -1 from habsent)]
    rfl

theorem slotAddr_eq (t : Fin dataBlocks) {i : Nat} {k : Fin tableSize}
    (hk : (k : Nat) = i - maxDirectBlocks) : slotAddr t i = some (tableAddr t k) := by
  have ht := t.isLt
  have hklt := k.isLt
  simp only [tableSize, blockSize, dataBlocks] at ht hklt
  have hsize : blockAddr t + 4 * (i - maxDirectBlocks) + 4 ≤ fsDataSize := by
    simp only [blockAddr, fsDataSize, blockSize, dataBlocks]
    omega
  rw [slotAddr, if_pos hsize, tableAddr, hk]

/-- A number of the indirect block is filled in. -/
theorem entry_takes {t : Fin dataBlocks} {k : Fin tableSize}
    (htable : fs.ref n .table = ((t : Nat) : Int))
    (habsent : fs.ref n (.entry k) = -1) (hfree : fs.freeBlocks b = .free) :
    Takes n (.entry k) b fs ((fs.setBlockState b .taken).setData
      (Memory.store fs.fsData (tableAddr t k) (intBytes 4 ((b : Nat) : Int)))) where
  absent := habsent
  free := hfree
  ref := by
    have hb := b.isLt
    simp only [dataBlocks] at hb
    have hnum : leInt (intBytes 4 ((b : Nat) : Int)) = ((b : Nat) : Int) :=
      leInt_intBytes (by norm_num; omega) (by norm_num; omega)
    funext r
    cases r with
    | direct j => simp [FS.ref]
    | table => simp [FS.ref]
    | entry k' =>
        have hget : dataBlockGet (fs.inodeTable n).iIndirectDataBlock = some t :=
          index?_eq_some.mpr htable
        simp only [FS.ref, FS.setData_inodeTable, FS.setBlockState_inodeTable, hget, FS.intAt,
          FS.fsData_setData]
        -- the number is stored over four bytes of its own
        by_cases hk : k' = k
        · subst hk
          have hload := Memory.load_store_same fs.fsData (tableAddr t k')
            (intBytes 4 ((b : Nat) : Int))
          rw [length_intBytes] at hload
          rw [Function.update_self, hload, hnum]
        · have hne : (k' : Nat) ≠ k := fun heq => hk (Fin.ext heq)
          rw [Function.update_of_ne (fun heq => hk (Ref.entry.inj heq)),
            Memory.load_store_disjoint (by rw [length_intBytes, tableAddr, tableAddr]; omega)]
          simp only [FS.ref, hget, FS.intAt]
  marks := rfl
  rest := ⟨fun _ _ => rfl, rfl, rfl, rfl, rfl⟩
  handle := rfl
  size := rfl
  same c hc _ := by
    have hk := k.isLt
    have hne : (c : Nat) ≠ t := by
      intro heq
      exact hc (htable.trans (by rw [heq]))
    intro x hx
    change Memory.store fs.fsData _ _ (blockAddr c + x) = fs.fsData (blockAddr c + x)
    simp only [blockAddr, blockSize, tableSize, tableAddr] at hx hk ⊢
    rcases Nat.lt_or_gt_of_ne hne with hlt | hlt
    · exact Memory.store_of_lt (by omega)
    · exact Memory.store_of_ge (by rw [length_intBytes]; omega)

/-- Storing the number that is there changes nothing. -/
theorem setData_intAt (a : Nat) :
    fs.setData (Memory.store fs.fsData a (intBytes 4 (fs.intAt a))) = fs := by
  have hbytes := intBytes_leInt (Memory.load fs.fsData a 4)
  rw [Memory.length_load] at hbytes
  rw [FS.intAt, hbytes, Memory.store_load]
  rfl

theorem store?_tableAddr (fs : FS) (t : Fin dataBlocks) (k : Fin tableSize) (i : Int) :
    fs.store? (tableAddr t k) (intBytes 4 i) =
      some (fs.setData (Memory.store fs.fsData (tableAddr t k) (intBytes 4 i))) := by
  have ht := t.isLt
  have hk := k.isLt
  simp only [tableSize, blockSize, dataBlocks] at ht hk
  rw [FS.store?, length_intBytes, if_pos]
  simp only [tableAddr, blockAddr, fsDataSize, blockSize, dataBlocks]
  omega

/-- Once the indirect block is there, its number for the block is used or filled in. -/
theorem writeIndirect_eval {fs₁ : FS} {t : Fin dataBlocks} {i : Nat} {k : Fin tableSize}
    (hk : (k : Nat) = i - maxDirectBlocks)
    (htable : (writeIndirectTable n).eval fs = some (some t, fs₁))
    (ht : fs₁.ref n .table = ((t : Nat) : Int)) :
    (∃ fs', (writeIndirect n i).eval fs = some (dataBlockGet (fs'.ref n (.entry k)), fs') ∧
      Filled n (.entry k) fs₁ fs') ∨
    (writeIndirect n i).eval fs = some (none, fs₁) ∧ Lacking fs₁ n (.entry k) := by
  have href : fs₁.ref n (.entry k) = fs₁.intAt (tableAddr t k) := ref_entry_eq ht k
  rw [writeIndirect]
  simp only [bind_eq, pure_eq]
  rw [eval_bind, htable, Option.bind_some]
  simp only [slotAddr_eq t hk, eval_read]
  by_cases habsent : fs₁.intAt (tableAddr t k) = -1
  · rw [if_pos habsent, eval_bind]
    cases hfree : freeList fs₁ with
    | nil =>
        right
        -- the failed allocation writes -1 over -1
        refine ⟨?_, href.trans habsent, hfree⟩
        rw [dataBlockAlloc_full hfree, Option.bind_some, eval_bind, modify?,
          eval_act_of_some (store?_tableAddr fs₁ t k (-1))]
        simp only [eval_ret, Option.bind_some]
        rw [← habsent, setData_intAt]
        simp [habsent]
    | cons b bs =>
        left
        have hb : fs₁.freeBlocks b = .free := mem_freeList.mp (hfree ▸ List.mem_cons_self)
        have htakes := entry_takes ht (href.trans habsent) hb
        refine ⟨_, ?_, Or.inr ⟨b, bs, hfree, htakes⟩⟩
        rw [dataBlockAlloc_first hfree, Option.bind_some, eval_bind, modify?,
          eval_act_of_some (store?_tableAddr _ t k _)]
        simp only [eval_ret, Option.bind_some]
        rw [decide_eq_true (natCast_ne_absent b), ret_bind, if_pos rfl,
          ref_entry_eq (htakes.ref_of_ne (by simp) |>.trans ht) k]
        rfl
  · left
    refine ⟨fs₁, ?_, Or.inl ⟨by rwa [href], rfl⟩⟩
    rw [if_neg habsent, href]
    rfl

/-! ## How many blocks a write takes -/

/-- How many of `count` blocks of a file, from block `i` on, are missing. -/
def missing (fs : FS) (n : Fin inodeTableSize) (i count : Nat) : Nat :=
  (List.range' i count).countP fun j => fs.slot n j = -1

/-- A write that reaches the blocks from `i` up to `stop` takes an indirect block. -/
def NeedsTable (fs : FS) (n : Fin inodeTableSize) (stop : Nat) : Prop :=
  fs.ref n .table = -1 ∧ maxDirectBlocks < stop

instance : Decidable (NeedsTable fs n off) := inferInstanceAs (Decidable (_ ∧ _))

/-- How many free blocks a write takes that reaches the blocks from `i` up to `stop`. -/
def lacks (fs : FS) (n : Fin inodeTableSize) (i stop : Nat) : Nat :=
  missing fs n i (stop - i) + if NeedsTable fs n stop then 1 else 0

/-- The block that becomes the indirect block in a write of the blocks from `i` up to `stop`:
the missing direct blocks are taken before it. -/
def newTable (fs : FS) (n : Fin inodeTableSize) (i stop : Nat) : Option (Fin dataBlocks) :=
  if NeedsTable fs n stop then (freeList fs)[missing fs n i (maxDirectBlocks - i)]? else none

/-- A new indirect block can be filled without leaving `fs_data` and without hitting a block
of the file. -/
def SafeTable (fs : FS) (n : Fin inodeTableSize) (i stop : Nat) : Prop :=
  ∀ t, newTable fs n i stop = some t →
    (t : Nat) + 3 < dataBlocks ∧ ∀ c, fs.Owns n c → ¬ (t < c ∧ (c : Nat) ≤ t + 3)

variable {i stop : Nat}

theorem missing_succ (fs : FS) (n : Fin inodeTableSize) (i count : Nat) :
    missing fs n i (count + 1) =
      (if fs.slot n i = -1 then 1 else 0) + missing fs n (i + 1) count := by
  rw [missing, missing, List.range'_succ, List.countP_cons, Nat.add_comm]
  simp only [decide_eq_true_eq]

/-- A file without blocks misses all. -/
theorem missing_all (habsent : ∀ r, fs.ref n r = -1) (i count : Nat) :
    missing fs n i count = count := by
  have hslot : ∀ j, fs.slot n j = -1 := by
    intro j
    by_contra hne
    rcases blockRef_of_slot hne with ⟨r, -, hr⟩
    exact hne (hr.trans (habsent r))
  rw [missing, List.countP_eq_length.mpr fun j _ => by rw [hslot]; rfl, List.length_range']

theorem missing_congr {count : Nat} (hslot : ∀ j, i ≤ j → fs'.slot n j = fs.slot n j) :
    missing fs' n i count = missing fs n i count := by
  apply List.countP_congr
  intro j hj
  rw [hslot j (List.mem_range'_1.mp hj).1]

theorem needsTable_congr (href : fs'.ref n = fs.ref n) :
    NeedsTable fs' n stop ↔ NeedsTable fs n stop := by
  rw [NeedsTable, NeedsTable, href]

theorem lacks_congr (href : fs'.ref n = fs.ref n) (i stop : Nat) :
    lacks fs' n i stop = lacks fs n i stop := by
  rw [lacks, lacks, missing_congr fun j _ => slot_congr href j,
    if_congr (needsTable_congr href) rfl rfl]

theorem newTable_congr (href : fs'.ref n = fs.ref n) (hmarks : fs'.freeBlocks = fs.freeBlocks)
    (i stop : Nat) : newTable fs' n i stop = newTable fs n i stop := by
  rw [newTable, newTable, missing_congr fun j _ => slot_congr href j, freeList_congr hmarks,
    if_congr (needsTable_congr href) rfl rfl]

theorem SafeTable.congr (hs : SafeTable fs n i stop) (href : fs'.ref n = fs.ref n)
    (hmarks : fs'.freeBlocks = fs.freeBlocks) : SafeTable fs' n i stop := by
  intro t ht
  rw [newTable_congr href hmarks] at ht
  rcases hs t ht with ⟨hin, hown⟩
  refine ⟨hin, ?_⟩
  rintro c ⟨r, hr⟩
  exact hown c ⟨r, by rw [← href, hr]⟩

/-- A write of the blocks from `i` up to `stop` can fill the place. -/
def Reaches (i stop : Nat) (r : Ref) : Prop :=
  (r = .table ∧ maxDirectBlocks < stop) ∨ ∃ j, i ≤ j ∧ j < stop ∧ blockRef j = some r

/-- What is known once the loop has dealt with block `i`. -/
structure Dealt (fs fs' : FS) (n : Fin inodeTableSize) (i stop : Nat) : Prop where
  found : fs'.slot n i ≠ -1 ↔ lacks fs n i (i + 1) ≤ (freeList fs).length
  free : fs'.slot n i ≠ -1 → ∃ k, freeList fs' = (freeList fs).drop k ∧
    k ≤ (freeList fs).length ∧ lacks fs n i stop = k + lacks fs' n (i + 1) stop
  exhausted : fs'.slot n i = -1 → freeList fs' = []
  safe : fs'.slot n i ≠ -1 → SafeTable fs' n (i + 1) stop
  table : ∀ t : Fin dataBlocks, fs.ref n .table = -1 → fs'.ref n .table = ((t : Nat) : Int) →
    newTable fs n i stop = some t
  later : fs'.slot n i ≠ -1 → fs'.ref n .table = -1 →
    newTable fs' n (i + 1) stop = newTable fs n i stop
  touched : ∀ r, fs'.ref n r ≠ fs.ref n r → Reaches i stop r

theorem Reaches.of_succ (hr : Reaches (i + 1) stop r) : Reaches i stop r := by
  rcases hr with htable | ⟨j, hij, hj, hplace⟩
  · exact Or.inl htable
  · exact Or.inr ⟨j, by omega, hj, hplace⟩

/-- What block `i` alone lacks. -/
theorem lacks_one (fs : FS) (n : Fin inodeTableSize) (i : Nat) : lacks fs n i (i + 1) =
    (if fs.slot n i = -1 then 1 else 0) + if NeedsTable fs n (i + 1) then 1 else 0 := by
  rw [lacks, show i + 1 - i = 0 + 1 by omega, missing_succ]
  rfl

theorem lacks_one_le (histop : i < stop) : lacks fs n i (i + 1) ≤ lacks fs n i stop := by
  have hneeds : NeedsTable fs n (i + 1) → NeedsTable fs n stop :=
    fun hneeds => ⟨hneeds.1, lt_of_lt_of_le hneeds.2 histop⟩
  have hmiss := missing_succ fs n i (stop - (i + 1))
  rw [show stop - (i + 1) + 1 = stop - i by omega] at hmiss
  rw [lacks_one, lacks, hmiss]
  by_cases hfirst : NeedsTable fs n (i + 1)
  · rw [if_pos hfirst, if_pos (hneeds hfirst)]
    omega
  · rw [if_neg hfirst]
    omega

/-- The block is found if the free blocks suffice for the whole write. -/
theorem Dealt.enough (hd : Dealt fs fs' n i stop) (histop : i < stop)
    (henough : lacks fs n i stop ≤ (freeList fs).length) : fs'.slot n i ≠ -1 :=
  hd.found.mpr ((lacks_one_le histop).trans henough)

/-- The free blocks suffice for the whole write if they suffice for the rest of it. -/
theorem Dealt.rest (hd : Dealt fs fs' n i stop) (hslot : fs'.slot n i ≠ -1) :
    lacks fs n i stop ≤ (freeList fs).length ↔
      lacks fs' n (i + 1) stop ≤ (freeList fs').length := by
  rcases hd.free hslot with ⟨k, hdrop, hk, hlacks⟩
  rw [hdrop, List.length_drop]
  omega

/-- No block was left for the place. -/
theorem Dealt.of_lacking (hslot : fs'.slot n i = -1)
    (hlacks : (freeList fs).length < lacks fs n i (i + 1)) (hnone : freeList fs' = [])
    (htable : ∀ t : Fin dataBlocks, fs.ref n .table = -1 →
      fs'.ref n .table = ((t : Nat) : Int) → newTable fs n i stop = some t)
    (htouched : ∀ r, fs'.ref n r ≠ fs.ref n r → Reaches i stop r) :
    Dealt fs fs' n i stop where
  found := iff_of_false (fun hne => hne hslot) (by omega)
  free hne := absurd hslot hne
  exhausted _ := hnone
  safe hne := absurd hslot hne
  table := htable
  later hne := absurd hslot hne
  touched := htouched

/-- In a write that needs an indirect block at once, that is the first free block. -/
theorem newTable_first {t : Fin dataBlocks} {ts : List (Fin dataBlocks)}
    (habsent : fs.ref n .table = -1) (hi : maxDirectBlocks ≤ i) (histop : i < stop)
    (hfree : freeList fs = t :: ts) : newTable fs n i stop = some t := by
  rw [newTable, if_pos ⟨habsent, by omega⟩, hfree, Nat.sub_eq_zero_of_le hi]
  rfl

/-- The indirect block that is there after its place was filled. -/
theorem Filled.eq_newTable {t : Fin dataBlocks} (hf : Filled n .table fs fs')
    (hi : maxDirectBlocks ≤ i) (histop : i < stop) (habsent : fs.ref n .table = -1)
    (ht : fs'.ref n .table = ((t : Nat) : Int)) : newTable fs n i stop = some t := by
  rcases hf with ⟨hne, -⟩ | ⟨b, bs, hlist, htakes⟩
  · exact absurd habsent hne
  · have hbt : t = b := natCast_block_inj (ht.symm.trans htakes.ref_self)
    subst hbt
    exact newTable_first habsent hi histop hlist

theorem newTable_absent {t : Fin dataBlocks} (htable : fs'.ref n .table = fs.ref n .table)
    (habsent : fs.ref n .table = -1) (ht : fs'.ref n .table = ((t : Nat) : Int)) :
    newTable fs n i stop = some t := by
  rw [htable, habsent] at ht
  exact absurd ht.symm (natCast_ne_absent t)

theorem slot_filled {r : Ref} (hf : Filled n r fs fs') {j : Nat} (hj : blockRef j ≠ some r) :
    fs'.slot n j = fs.slot n j := by
  rw [FS.slot, FS.slot]
  cases hr : blockRef j with
  | none => rfl
  | some r' =>
      refine hf.ref_of_ne ?_
      rintro rfl
      exact hj hr

theorem Filled.slot_after {hi : i < maxDirectBlocks} (hf : Filled n (.direct ⟨i, hi⟩) fs fs')
    (j : Nat) (hj : i + 1 ≤ j) : fs'.slot n j = fs.slot n j := by
  refine slot_filled hf fun heq => ?_
  have hji := blockRef_inj heq (blockRef_direct hi)
  omega

theorem Filled.missing_direct {hi : i < maxDirectBlocks} (hf : Filled n (.direct ⟨i, hi⟩) fs fs')
    (count : Nat) : missing fs n i (count + 1) =
      (if fs.slot n i = -1 then 1 else 0) + missing fs' n (i + 1) count := by
  rw [missing_succ, missing_congr hf.slot_after]

/-- While the direct blocks are dealt with, the indirect block that will be taken stays the same
one. -/
theorem Filled.newTable_direct {hi : i < maxDirectBlocks}
    (hf : Filled n (.direct ⟨i, hi⟩) fs fs') (stop : Nat) :
    newTable fs' n (i + 1) stop = newTable fs n i stop := by
  have htable : fs'.ref n .table = fs.ref n .table := hf.ref_of_ne (by simp)
  have hneeds : NeedsTable fs' n stop ↔ NeedsTable fs n stop := by
    rw [NeedsTable, NeedsTable, htable]
  have hfree := hf.free
  rw [← slot_of_ref (blockRef_direct hi)] at hfree
  rw [newTable, newTable, if_congr hneeds rfl rfl, hfree, List.getElem?_drop, ← hf.missing_direct,
    show maxDirectBlocks - (i + 1) + 1 = maxDirectBlocks - i by omega]

theorem Filled.dealt_direct {hi : i < maxDirectBlocks} (hf : Filled n (.direct ⟨i, hi⟩) fs fs')
    (histop : i < stop) (hsafe : SafeTable fs n i stop) : Dealt fs fs' n i stop := by
  have hplace := blockRef_direct hi
  have htable : fs'.ref n .table = fs.ref n .table := hf.ref_of_ne (by simp)
  have hneeds : NeedsTable fs' n stop ↔ NeedsTable fs n stop := by
    rw [NeedsTable, NeedsTable, htable]
  have hpresent : fs'.slot n i ≠ -1 := by
    rw [slot_of_ref hplace]
    exact hf.present
  have hsame := hf.newTable_direct stop
  have hlength := hf.length
  rw [← slot_of_ref hplace] at hlength
  refine ⟨iff_of_true hpresent ?_, fun _ => ⟨_, hf.free, ?_, ?_⟩,
    fun habsent => absurd habsent hpresent, fun _ t ht => ?_, fun t => newTable_absent htable,
    fun _ _ => hsame, fun r hr => Or.inr ⟨i, le_refl i, histop, hf.changed hr ▸ hplace⟩⟩
  · have hdirect : ¬ NeedsTable fs n (i + 1) := fun hneeds => absurd hneeds.2 (by omega)
    rw [lacks_one, if_neg hdirect]
    omega
  · rw [← slot_of_ref hplace]
    omega
  · rw [← slot_of_ref hplace, lacks, lacks, show stop - i = stop - (i + 1) + 1 by omega,
      hf.missing_direct, if_congr hneeds rfl rfl]
    omega
  · rcases hsafe t (hsame.symm.trans ht) with ⟨hin, hown⟩
    refine ⟨hin, ?_⟩
    rintro c ⟨r, hr⟩ ⟨hlt, hle⟩
    by_cases hc : fs.Owns n c
    · exact hown c hc ⟨hlt, hle⟩
    -- a block that was taken now comes before the indirect block in the list of free ones
    · rcases hf with ⟨-, rfl⟩ | ⟨b, bs, hlist, htakes⟩
      · exact hc ⟨r, hr⟩
      · have hrb : r = .direct ⟨i, hi⟩ := by
          by_contra hne
          exact hc ⟨r, (htakes.ref_of_ne hne).symm.trans hr⟩
        subst hrb
        have hcb : b = c := natCast_block_inj (htakes.ref_self.symm.trans hr)
        subst hcb
        rw [newTable] at ht
        split at ht
        · have hmem := List.mem_of_getElem? ht
          rw [freeList_take hlist htakes.marks] at hmem
          have hsorted := freeList_pairwise fs
          rw [hlist, List.pairwise_cons] at hsorted
          exact absurd hlt (not_lt_of_gt (hsorted.1 t hmem))
        · cases ht

/-- A block past the direct ones is dealt with: from then on the file has its indirect
block. -/
theorem Filled.dealt_entry {fs₁ : FS} {k : Fin tableSize} (hplace : blockRef i = some (.entry k))
    (ht : Filled n .table fs fs₁) (he : Filled n (.entry k) fs₁ fs') (hi : maxDirectBlocks ≤ i)
    (histop : i < stop) : Dealt fs fs' n i stop := by
  have hslot : ∀ j, i + 1 ≤ j → fs'.slot n j = fs.slot n j := by
    intro j hj
    rw [slot_filled he, slot_filled ht (blockRef_ne_table j)]
    intro heq
    have hji := blockRef_inj heq hplace
    omega
  have hslot₁ : fs₁.ref n (.entry k) = fs.slot n i := by
    rw [slot_of_ref hplace, ht.ref_of_ne (by simp)]
  have htable : fs'.ref n .table ≠ -1 := by
    rw [he.ref_of_ne (by simp)]
    exact ht.present
  have hneeds : ¬ NeedsTable fs' n stop := fun hneeds => htable hneeds.1
  have hneeds₀ : ∀ stop, i < stop → (NeedsTable fs n stop ↔ fs.ref n .table = -1) :=
    fun stop histop => and_iff_left (by omega)
  have hpresent : fs'.slot n i ≠ -1 := by
    rw [slot_of_ref hplace]
    exact he.present
  -- the table takes the first free block, the number the one after it
  have hlength := he.length
  have hlength₁ := ht.length
  have hfree := he.free
  rw [ht.free, List.drop_drop] at hfree
  rw [hslot₁] at hlength hfree
  refine ⟨iff_of_true hpresent ?_, fun _ => ⟨_, hfree, ?_, ?_⟩,
    fun habsent => absurd habsent hpresent, fun _ t ht => ?_, fun t habsent ht' => ?_,
    fun _ habsent => absurd habsent htable, fun r hr => ?_⟩
  · rw [lacks_one, if_congr (hneeds₀ (i + 1) (by omega)) rfl rfl]
    omega
  · omega
  · rw [lacks, lacks, show stop - i = stop - (i + 1) + 1 by omega, missing_succ,
      if_congr (hneeds₀ stop histop) rfl rfl, if_neg hneeds, missing_congr hslot]
    omega
  · rw [newTable, if_neg hneeds] at ht
    cases ht
  · exact ht.eq_newTable hi histop habsent ((he.ref_of_ne (by simp)).symm.trans ht')
  · by_cases hre : r = .entry k
    · exact Or.inr ⟨i, le_refl i, histop, hre ▸ hplace⟩
    · rw [he.ref_of_ne hre] at hr
      exact Or.inl ⟨ht.changed hr, by omega⟩

/-! ## Finding a block -/

/-- What the loop of a write does to find block `i`. It answers with the block, or with nothing
where no block was left. -/
theorem writeBlock_eval (hl : FileLayout fs n) (hoff : (fs.openFileTable h).ofOffset = off)
    (histop : i < stop) (hstop : stop ≤ maxFileBlocks) (hsafe : SafeTable fs n i stop) :
    ∃ fs', (writeBlock n i).eval fs = some (fs'.blockAt n i, fs') ∧
      Wrote h n off [] fs fs' ∧ FileLayout fs' n ∧ Dealt fs fs' n i stop := by
  -- a direct block, or the indirect block first and then a number of it
  by_cases hi : i < maxDirectBlocks
  · have hplace := blockRef_direct hi
    rw [writeBlock, dif_pos hi]
    rcases writeDirect_eval fs n ⟨i, hi⟩ with ⟨fs', heval, hf⟩ | ⟨heval, habsent, hnone⟩
    · have htable : fs'.ref n .table = fs.ref n .table := hf.ref_of_ne (by simp)
      refine ⟨fs', ?_, hf.wrote hl (fun c _ => not_spilled_of_table htable) hoff, hf.layout hl,
        hf.dealt_direct histop hsafe⟩
      rw [heval, FS.blockAt, slot_of_ref hplace]
    · have hslot : fs.slot n i = -1 := (slot_of_ref hplace).trans habsent
      refine ⟨fs, ?_, Wrote.refl hl hoff, hl,
        Dealt.of_lacking hslot ?_ hnone (fun t => newTable_absent rfl) fun _ hr => absurd rfl hr⟩
      · rw [heval, FS.blockAt, hslot, dataBlockGet_absent]
      · rw [hnone, lacks_one, if_pos hslot, List.length_nil]
        omega
  · have hge : maxDirectBlocks ≤ i := by omega
    rcases blockRef_entry hge (by omega) with ⟨k, hk, hplace⟩
    have htaken : ∀ t ts, fs.ref n .table = -1 → freeList fs = t :: ts →
        (t : Nat) + 3 < dataBlocks :=
      fun t ts habsent hfree => (hsafe t (newTable_first habsent hge histop hfree)).1
    rw [writeBlock, dif_neg hi]
    rcases writeIndirectTable_eval htaken with ⟨fs₁, heval, ht⟩ | ⟨heval, habsent, hnone⟩
    · have hl₁ := ht.layout hl
      rcases hl₁.taken _ ht.present with ⟨t, htref, -⟩
      rw [htref, dataBlockGet_natCast] at heval
      have hspill : ∀ c, fs.Owns n c → ¬ Spilled fs fs₁ n c := by
        rintro c hown ⟨habsent, t', ht', hlt, hle⟩
        exact (hsafe t' (ht.eq_newTable hge histop habsent ht')).2 c hown ⟨hlt, hle⟩
      have hw₁ : Wrote h n off [] fs fs₁ := ht.wrote hl hspill hoff
      have hoff₁ : (fs₁.openFileTable h).ofOffset = off := by
        rw [hw₁.handle, Function.update_self]
        rfl
      rcases writeIndirect_eval hk heval htref with ⟨fs', heval', he⟩ | ⟨heval', habsent, hnone⟩
      · have htable : fs'.ref n .table = fs₁.ref n .table := he.ref_of_ne (by simp)
        refine ⟨fs', ?_, ?_, he.layout hl₁, Filled.dealt_entry hplace ht he hge histop⟩
        · rw [heval', FS.blockAt, slot_of_ref hplace]
        · exact hw₁.trans (he.wrote hl₁ (fun c _ => not_spilled_of_table htable) hoff₁)
      -- the indirect block took the last free one
      · have hslot₁ : fs₁.slot n i = -1 := (slot_of_ref hplace).trans habsent
        refine ⟨fs₁, ?_, hw₁, hl₁,
          Dealt.of_lacking hslot₁ ?_ hnone (fun t => ht.eq_newTable hge histop)
            fun _ hr => Or.inl ⟨ht.changed hr, by omega⟩⟩
        · rw [heval', FS.blockAt, hslot₁, dataBlockGet_absent]
        · have hslot : fs.slot n i = -1 := by
            rw [← slot_filled ht (blockRef_ne_table i), hslot₁]
          have hdrop := congrArg List.length (ht.free.symm.trans hnone)
          rw [List.length_drop, List.length_nil] at hdrop
          have hneeds : NeedsTable fs n (i + 1) ↔ fs.ref n .table = -1 := by
            rw [NeedsTable, and_iff_left (by omega)]
          rw [lacks_one, if_pos hslot, if_congr hneeds rfl rfl]
          omega
    · have hslot : fs.slot n i = -1 := (slot_of_ref hplace).trans (ref_entry_absent habsent k)
      refine ⟨fs, ?_, Wrote.refl hl hoff, hl,
        Dealt.of_lacking hslot ?_ hnone (fun t => newTable_absent rfl) fun _ hr => absurd rfl hr⟩
      · rw [writeIndirect, bind_eq, eval_bind, heval, FS.blockAt, hslot, dataBlockGet_absent]
        rfl
      · rw [hnone, lacks_one, if_pos hslot, List.length_nil]
        omega

end TecnicoFS.Part1
