import TecnicoFS.Part1.Blocks

/-!
# Part 1: what a write does to the blocks of a file

`Wrote` is the effect of a stretch of `tfs_write`: some bytes are stored from an offset on, the
handle moves behind them, the file grows, and places of the file that held no block may hold
one that was free. Stretches compose (`Wrote.trans`), and each is made of two elementary ones:
a place takes a block (`Takes.wrote`), and bytes are stored inside one block (`put_wrote`).

A new indirect block is filled far past its end. `Spilled` are the blocks behind it that this
overwrites.
-/

namespace TecnicoFS.Part1

open Threads Threads.Prog
open Part2 (blockSize dataBlocks inodeTableSize maxOpenFiles blockAddr dataBlockGet)

variable {fs fs' fs'' : FS} {n : Fin inodeTableSize} {h : Fin maxOpenFiles} {off : Nat}
  {data data' : List UInt8} {b c : Fin dataBlocks}

/-- The places of a file hold different blocks, all of them taken. -/
structure FileLayout (fs : FS) (n : Fin inodeTableSize) : Prop where
  taken : ∀ r, fs.ref n r ≠ -1 →
    ∃ b : Fin dataBlocks, fs.ref n r = ((b : Nat) : Int) ∧ fs.freeBlocks b = .taken
  distinct : ∀ r r', fs.ref n r ≠ -1 → fs.ref n r = fs.ref n r' → r = r'

/-- The file gets an indirect block, and this is one of the three blocks behind it. -/
def Spilled (fs fs' : FS) (n : Fin inodeTableSize) (b : Fin dataBlocks) : Prop :=
  fs.ref n .table = -1 ∧
    ∃ t : Fin dataBlocks, fs'.ref n .table = ((t : Nat) : Int) ∧ t < b ∧ (b : Nat) ≤ t + 3

/-- What no read and no write of the file `n` touches. -/
structure SameRest (n : Fin inodeTableSize) (fs fs' : FS) : Prop where
  others : ∀ m, m ≠ n → fs'.inodeTable m = fs.inodeTable m
  nType : (fs'.inodeTable n).iNodeType = (fs.inodeTable n).iNodeType
  states : fs'.freeinodeTs = fs.freeinodeTs
  handles : fs'.freeOpenFileEntries = fs.freeOpenFileEntries
  count : fs'.openFilesCount = fs.openFilesCount

/-- The size of a file after bytes are stored in it. -/
def grown (size off count : Nat) : Nat := if count = 0 then size else max size (off + count)

/-- The effect of a stretch of `tfs_write` that stores `data` at offset `off`. -/
structure Wrote (h : Fin maxOpenFiles) (n : Fin inodeTableSize) (off : Nat) (data : List UInt8)
    (fs fs' : FS) : Prop where
  rest : SameRest n fs fs'
  handle : fs'.openFileTable = Function.update fs.openFileTable h
    ⟨(fs.openFileTable h).ofInumber, off + data.length⟩
  size : (fs'.inodeTable n).iSize = grown (fs.inodeTable n).iSize off data.length
  kept : ∀ r, fs.ref n r ≠ -1 → fs'.ref n r = fs.ref n r
  fresh : ∀ r (b : Fin dataBlocks), fs.ref n r = -1 → fs'.ref n r = ((b : Nat) : Int) →
    fs.freeBlocks b = .free
  marks : ∀ b, fs'.freeBlocks b = .taken ↔ fs.freeBlocks b = .taken ∨ fs'.Owns n b
  written : ∀ p, off ≤ p → p < off + data.length → fs'.fileByte n p = data[p - off]?
  bytes : ∀ p, p < off ∨ off + data.length ≤ p → fs.fileByte n p ≠ none →
    fs'.fileByte n p = fs.fileByte n p
  frame : ∀ b, ¬ fs'.Owns n b → ¬ Spilled fs fs' n b → SameBlock fs fs' b

/-! ## Composition -/

theorem SameRest.refl (n : Fin inodeTableSize) (fs : FS) : SameRest n fs fs :=
  ⟨fun _ _ => rfl, rfl, rfl, rfl, rfl⟩

theorem SameRest.trans (h₁ : SameRest n fs fs') (h₂ : SameRest n fs' fs'') :
    SameRest n fs fs'' where
  others m hm := (h₂.others m hm).trans (h₁.others m hm)
  nType := h₂.nType.trans h₁.nType
  states := h₂.states.trans h₁.states
  handles := h₂.handles.trans h₁.handles
  count := h₂.count.trans h₁.count

theorem grown_grown (size off k l : Nat) :
    grown (grown size off k) (off + k) l = grown size off (k + l) := by
  unfold grown
  split <;> split <;> split <;> omega

/-- A block that a file holds, it still holds. -/
theorem Wrote.owns (hw : Wrote h n off data fs fs') (hb : fs.Owns n b) : fs'.Owns n b := by
  rcases hb with ⟨r, hr⟩
  exact ⟨r, (hw.kept r (hr ▸ natCast_ne_absent b)).trans hr⟩

theorem Wrote.trans (h₁ : Wrote h n off data fs fs')
    (h₂ : Wrote h n (off + data.length) data' fs' fs'') :
    Wrote h n off (data ++ data') fs fs'' where
  rest := h₁.rest.trans h₂.rest
  handle := by
    rw [h₂.handle, h₁.handle, Function.update_self, Function.update_idem, List.length_append,
      Nat.add_assoc]
  size := by rw [h₂.size, h₁.size, grown_grown, List.length_append]
  kept := by
    intro r hr
    have hr' : fs'.ref n r = fs.ref n r := h₁.kept r hr
    rw [h₂.kept r (hr' ▸ hr), hr']
  fresh := by
    intro r b hr hb
    -- the place is filled by the second write, or it was by the first
    by_cases hr' : fs'.ref n r = -1
    · have hfree := h₂.fresh r b hr' hb
      rw [eq_free_iff] at hfree ⊢
      exact fun htaken => hfree ((h₁.marks b).mpr (Or.inl htaken))
    · exact h₁.fresh r b hr ((h₂.kept r hr').symm.trans hb)
  marks := by
    intro b
    rw [h₂.marks, h₁.marks, or_assoc]
    have howns : fs'.Owns n b ∨ fs''.Owns n b ↔ fs''.Owns n b :=
      or_iff_right_of_imp h₂.owns
    rw [howns]
  written := by
    intro p hlo hhi
    rw [List.length_append] at hhi
    -- the bytes of the first write are behind the second one
    rcases Nat.lt_or_ge p (off + data.length) with hp | hp
    · have hfirst := h₁.written p hlo hp
      have hdata : p - off < data.length := by omega
      rw [List.getElem?_append_left hdata, ← hfirst]
      refine h₂.bytes p (Or.inl hp) ?_
      rw [hfirst, List.getElem?_eq_getElem hdata]
      simp
    · have hsecond := h₂.written p hp (by omega)
      rw [List.getElem?_append_right (by omega), hsecond, Nat.sub_sub]
  bytes := by
    intro p hp hbyte
    rw [List.length_append] at hp
    have hfirst := h₁.bytes p (by omega) hbyte
    rw [← hfirst] at hbyte
    rw [h₂.bytes p (by omega) hbyte, hfirst]
  frame := by
    intro b hb hspill
    refine (h₁.frame b (fun hown => hb (h₂.owns hown)) ?_).trans (h₂.frame b hb ?_)
    · rintro ⟨habsent, t, ht, hlt⟩
      exact hspill ⟨habsent, t, (h₂.kept .table (ht ▸ natCast_ne_absent t)).trans ht, hlt⟩
    · rintro ⟨habsent, t, ht, hlt⟩
      refine hspill ⟨?_, t, ht, hlt⟩
      by_contra hne
      exact hne ((h₁.kept .table hne).symm.trans habsent)

/-! ## A place takes a block -/

/-- A place of the file that held no block takes a free one. Only bytes of the indirect block
and of the blocks that are spilled into may change. -/
structure Takes (n : Fin inodeTableSize) (r : Ref) (b : Fin dataBlocks) (fs fs' : FS) : Prop where
  absent : fs.ref n r = -1
  free : fs.freeBlocks b = .free
  ref : fs'.ref n = Function.update (fs.ref n) r ((b : Nat) : Int)
  marks : fs'.freeBlocks = Function.update fs.freeBlocks b .taken
  rest : SameRest n fs fs'
  handle : fs'.openFileTable = fs.openFileTable
  size : (fs'.inodeTable n).iSize = (fs.inodeTable n).iSize
  same : ∀ c : Fin dataBlocks, fs'.ref n .table ≠ ((c : Nat) : Int) → ¬ Spilled fs fs' n c →
    SameBlock fs fs' c

theorem Takes.ref_of_ne {r r' : Ref} (ht : Takes n r b fs fs') (hr : r' ≠ r) :
    fs'.ref n r' = fs.ref n r' := by
  rw [ht.ref, Function.update_of_ne hr]

theorem Takes.ref_self {r : Ref} (ht : Takes n r b fs fs') :
    fs'.ref n r = ((b : Nat) : Int) := by
  rw [ht.ref, Function.update_self]

/-- A block in a place of the file is taken. -/
theorem FileLayout.taken_of_ref {r : Ref} (hl : FileLayout fs n)
    (hr : fs.ref n r = ((b : Nat) : Int)) : fs.freeBlocks b = .taken := by
  rcases hl.taken r (hr ▸ natCast_ne_absent b) with ⟨c, hc, htaken⟩
  rwa [natCast_block_inj (hr.symm.trans hc)]

/-- A block that is free is in no place of the file. -/
theorem FileLayout.not_free {r : Ref} (hl : FileLayout fs n) (hfree : fs.freeBlocks b = .free) :
    fs.ref n r ≠ ((b : Nat) : Int) := by
  intro hr
  rw [hl.taken_of_ref hr] at hfree
  cases hfree

theorem Takes.layout {r : Ref} (ht : Takes n r b fs fs') (hl : FileLayout fs n) :
    FileLayout fs' n where
  taken := by
    intro r' hr'
    by_cases hr : r' = r
    · subst hr
      exact ⟨b, ht.ref_self, by rw [ht.marks, Function.update_self]⟩
    · rw [ht.ref_of_ne hr] at hr' ⊢
      rcases hl.taken r' hr' with ⟨c, hc, htaken⟩
      refine ⟨c, hc, ?_⟩
      have hne : c ≠ b := by
        rintro rfl
        exact hl.not_free ht.free hc
      rw [ht.marks, Function.update_of_ne hne, htaken]
  distinct := by
    intro r₁ r₂ hne heq
    by_cases h₁ : r₁ = r <;> by_cases h₂ : r₂ = r
    · rw [h₁, h₂]
    · rw [h₁, ht.ref_self, ht.ref_of_ne h₂] at heq
      exact absurd heq.symm (hl.not_free ht.free)
    · rw [h₂, ht.ref_self, ht.ref_of_ne h₁] at heq
      exact absurd heq (hl.not_free ht.free)
    · rw [ht.ref_of_ne h₁, ht.ref_of_ne h₂] at heq
      rw [ht.ref_of_ne h₁] at hne
      exact hl.distinct r₁ r₂ hne heq

theorem Takes.wrote {r : Ref} (ht : Takes n r b fs fs') (hl : FileLayout fs n)
    (hspill : ∀ c, fs.Owns n c → ¬ Spilled fs fs' n c)
    (hoff : (fs.openFileTable h).ofOffset = off) : Wrote h n off [] fs fs' where
  rest := ht.rest
  handle := by
    rw [ht.handle, ← hoff]
    exact (Function.update_eq_self h fs.openFileTable).symm
  size := ht.size
  kept := by
    intro r' hr'
    refine ht.ref_of_ne ?_
    rintro rfl
    exact hr' ht.absent
  fresh := by
    intro r' c hr' hc
    by_cases hr : r' = r
    · subst hr
      rw [← natCast_block_inj (ht.ref_self.symm.trans hc)]
      exact ht.free
    · rw [ht.ref_of_ne hr, hr'] at hc
      exact absurd hc.symm (natCast_ne_absent c)
  marks := by
    intro c
    by_cases hc : c = b
    · subst hc
      rw [ht.marks, Function.update_self]
      exact ⟨fun _ => Or.inr ⟨r, ht.ref_self⟩, fun _ => rfl⟩
    · rw [ht.marks, Function.update_of_ne hc]
      refine ⟨Or.inl, ?_⟩
      rintro (htaken | ⟨r', hr'⟩)
      · exact htaken
      · by_cases hr : r' = r
        · subst hr
          exact absurd (natCast_block_inj (ht.ref_self.symm.trans hr')).symm hc
        · rw [ht.ref_of_ne hr] at hr'
          exact hl.taken_of_ref hr'
  written := by
    intro p hlo hhi
    rw [List.length_nil] at hhi
    omega
  bytes := by
    intro p _ hbyte
    cases hc : fs.blockAt n (p / blockSize) with
    | none =>
        rw [FS.fileByte, hc] at hbyte
        exact absurd rfl hbyte
    | some c =>
        have hslot := blockAt_eq_some.mp hc
        rcases blockRef_of_slot (hslot ▸ natCast_ne_absent c) with ⟨r', hplace, hr'⟩
        rw [hslot] at hr'
        have hne : r' ≠ r := by
          rintro rfl
          rw [ht.absent] at hr'
          exact natCast_ne_absent c hr'
        have hrefc : fs'.ref n r' = ((c : Nat) : Int) := (ht.ref_of_ne hne).trans hr'.symm
        have hc' : fs'.blockAt n (p / blockSize) = some c := by
          rw [blockAt_eq_some, slot_of_ref hplace, hrefc]
        -- the indirect block lies in another place than a block of data
        have htable : fs'.ref n .table ≠ ((c : Nat) : Int) := by
          intro heq
          have hr := (ht.layout hl).distinct r' .table (hrefc ▸ natCast_ne_absent c)
            (hrefc.trans heq.symm)
          exact blockRef_ne_table _ (hr ▸ hplace)
        have hsame := ht.same c htable (hspill c ⟨r', hr'.symm⟩)
        rw [FS.fileByte, FS.fileByte, hc, hc', Option.map_some, Option.map_some,
          hsame _ (Nat.mod_lt _ (by decide))]
  frame := by
    intro c hown hspilled
    exact ht.same c (fun heq => hown ⟨.table, heq⟩) hspilled

/-! ## Bytes are stored in a block -/

/-- The state after bytes are stored in a block from the offset of a handle on. -/
def FS.put (fs : FS) (h : Fin maxOpenFiles) (n : Fin inodeTableSize) (b : Fin dataBlocks)
    (bytes : List UInt8) : FS :=
  (fs.setData (Memory.store fs.fsData
    (blockAddr b + (fs.openFileTable h).ofOffset % blockSize) bytes)).advance h n bytes.length

theorem put_openFileTable {bytes : List UInt8} : (fs.put h n b bytes).openFileTable =
    Function.update fs.openFileTable h ⟨(fs.openFileTable h).ofInumber,
      wordAdd (fs.openFileTable h).ofOffset bytes.length⟩ := rfl

theorem put_iSize {bytes : List UInt8} : ((fs.put h n b bytes).inodeTable n).iSize =
    max (fs.inodeTable n).iSize (wordAdd (fs.openFileTable h).ofOffset bytes.length) := by
  simp [FS.put, FS.advance]

theorem put_frame {bytes : List UInt8}
    (hfit : (fs.openFileTable h).ofOffset % blockSize + bytes.length ≤ blockSize) (hc : c ≠ b) :
    SameBlock fs (fs.put h n b bytes) c := by
  have hcb : (c : Nat) ≠ b := fun heq => hc (Fin.ext heq)
  intro x hx
  change Memory.store fs.fsData _ bytes (blockAddr c + x) = fs.fsData (blockAddr c + x)
  simp only [blockAddr, blockSize] at hfit hx ⊢
  rcases Nat.lt_or_gt_of_ne hcb with hlt | hlt
  · exact Memory.store_of_lt (by omega)
  · exact Memory.store_of_ge (by omega)

theorem put_ref {bytes : List UInt8}
    (hfit : (fs.openFileTable h).ofOffset % blockSize + bytes.length ≤ blockSize)
    (hb : fs.ref n .table ≠ ((b : Nat) : Int)) : (fs.put h n b bytes).ref n = fs.ref n := by
  refine ref_congr ?_ ?_ fun t ht => put_frame hfit ?_
  · simp [FS.put, FS.advance]
  · simp [FS.put, FS.advance]
  · rintro rfl
    exact hb ht

/-- The block of a file at which an offset points is not its indirect block. -/
theorem FileLayout.ne_table {j : Nat} (hl : FileLayout fs n) (hb : fs.blockAt n j = some b) :
    fs.ref n .table ≠ ((b : Nat) : Int) := by
  have hslot := blockAt_eq_some.mp hb
  rcases blockRef_of_slot (hslot ▸ natCast_ne_absent b) with ⟨r, hplace, hr⟩
  rw [hslot] at hr
  intro htable
  have hr' := hl.distinct .table r (htable ▸ natCast_ne_absent b) (htable.trans hr)
  exact blockRef_ne_table j (hr' ▸ hplace)

/-- Two blocks of a file with the same number are one block of it. -/
theorem FileLayout.blockAt_inj {i j : Nat} (hl : FileLayout fs n) (hi : fs.blockAt n i = some b)
    (hj : fs.blockAt n j = some b) : i = j := by
  have hsi := blockAt_eq_some.mp hi
  have hsj := blockAt_eq_some.mp hj
  rcases blockRef_of_slot (hsi ▸ natCast_ne_absent b) with ⟨r, hr, hri⟩
  rcases blockRef_of_slot (hsj ▸ natCast_ne_absent b) with ⟨r', hr', hrj⟩
  have hne : fs.ref n r ≠ -1 := by
    rw [← hri, hsi]
    exact natCast_ne_absent b
  have heq := hl.distinct r r' hne (hri.symm.trans (hsi.trans (hsj.symm.trans hrj)))
  exact blockRef_inj hr (heq ▸ hr')

theorem put_wrote {bytes : List UInt8} (hl : FileLayout fs n)
    (hoff : (fs.openFileTable h).ofOffset = off)
    (hb : fs.blockAt n (off / blockSize) = some b)
    (hfit : off % blockSize + bytes.length ≤ blockSize) (hbytes : bytes ≠ [])
    (hword : off + bytes.length < wordSize) :
    Wrote h n off bytes fs (fs.put h n b bytes) := by
  have hlen : bytes.length ≠ 0 := by simpa using hbytes
  rw [← hoff] at hfit
  have href := put_ref hfit (hl.ne_table hb)
  rw [hoff] at hfit
  -- only the block of the offset is stored in, and it is in one place of the file
  have hcell : ∀ p, fs.blockAt n (p / blockSize) = some b → off / blockSize = p / blockSize :=
    fun p hp => hl.blockAt_inj hb hp
  have hbyte : ∀ p, (fs.put h n b bytes).fileByte n p =
      (fs.blockAt n (p / blockSize)).map fun c =>
        Memory.store fs.fsData (blockAddr b + off % blockSize) bytes
          (blockAddr c + p % blockSize) := by
    intro p
    rw [FS.fileByte, blockAt_congr href, ← hoff]
    rfl
  refine
    { rest := ⟨fun m hm => by simp [FS.put, FS.advance, hm], by simp [FS.put, FS.advance],
        rfl, rfl, rfl⟩
      handle := ?_
      size := ?_
      kept := fun r _ => congrFun href r
      fresh := ?_
      marks := ?_
      written := ?_
      bytes := ?_
      frame := ?_ }
  · rw [put_openFileTable, hoff, wordAdd_of_lt hword]
  · rw [put_iSize, hoff, wordAdd_of_lt hword, grown, if_neg hlen]
  · intro r c habsent hc
    rw [href, habsent] at hc
    exact absurd hc.symm (natCast_ne_absent c)
  · intro c
    change fs.freeBlocks c = .taken ↔ _
    refine ⟨Or.inl, ?_⟩
    rintro (htaken | ⟨r, hr⟩)
    · exact htaken
    · rw [href] at hr
      exact hl.taken_of_ref hr
  · intro p hlo hhi
    simp only [blockSize] at hfit hb hbyte ⊢
    have hp : p / 1024 = off / 1024 := by omega
    have hidx : p - off < bytes.length := by omega
    rw [hbyte, hp, hb, Option.map_some,
      show blockAddr b + p % 1024 = blockAddr b + off % 1024 + (p - off) by omega,
      Memory.store_add hidx, List.getElem?_eq_getElem hidx]
  · intro p hp _
    rw [hbyte, FS.fileByte]
    cases hc : fs.blockAt n (p / blockSize) with
    | none => rfl
    | some c =>
        simp only [Option.map_some, Option.some.injEq]
        by_cases hcb : c = b
        · subst hcb
          have hsame := hcell p hc
          simp only [blockSize] at hsame hfit ⊢
          rcases hp with hp | hp
          · exact Memory.store_of_lt (by omega)
          · exact Memory.store_of_ge (by omega)
        -- a byte in another block of the file
        · have hne : (c : Nat) ≠ b := fun heq => hcb (Fin.ext heq)
          have hx := Nat.mod_lt p (show 0 < blockSize by decide)
          simp only [blockAddr, blockSize] at hfit hx ⊢
          rcases Nat.lt_or_gt_of_ne hne with hlt | hlt
          · exact Memory.store_of_lt (by omega)
          · exact Memory.store_of_ge (by omega)
  · intro c hown _
    refine put_frame (hoff ▸ hfit) ?_
    rintro rfl
    exact hown (by
      rcases owns_of_blockAt hb with ⟨r, hr⟩
      exact ⟨r, by rw [href, hr]⟩)

end TecnicoFS.Part1
