import TecnicoFS.Part1.Creation

/-!
# Part 1: the lock order

Every path of `tfs_lookup`, `tfs_open`, `tfs_close`, `tfs_read` and `tfs_write` takes its locks
in the order of their `rank`, so no set of threads can wait for each other. What this needs
from the data is that nothing but `add_dir_entry` changes the root directory: then a new i-node
is in nobody's hands, it has no blocks, and `inode_delete` has none to free under a lock it
already holds. A `tfs_write` of no bytes is left out: it returns with both of its locks.
-/

namespace TecnicoFS.Part1

open Threads Threads.Prog Threads.Discipline
open Part2 (Call Ret blockSize dataBlocks inodeTableSize maxOpenFiles blockAddr dataBlockGet
  inodeGet getOpenFileEntry)

variable {opensOnly : Prop} {may : FS → FS → Prop} {α : Type}
  {Q : α → List (Lock × Mode) → Unit → World FS Cond Unit → Prop}
  {held : List (Lock × Mode)} {w w' : World FS Cond Unit}

/-! ## Closing a handle -/

theorem removeFromOpenFileTable_wp {k : Int → Op α} {fhandle : Int} (hcloses : ¬ opensOnly)
    (hnext : ∀ r, DirLater opensOnly [] (DirWp opensOnly may Q (k r) []) w) :
    DirWp opensOnly may Q ((removeFromOpenFileTable fhandle).bind k) [] w := by
  unfold removeFromOpenFileTable
  split
  · trivial
  · rename_i h _
    simp only [bind_eq, Prog.bind_assoc]
    refine wp_readLock fun w₁ hrely₁ _ => ⟨below_nil, fun _ => ?_⟩
    have hnext₁ := fun r => (hnext r).rely hrely₁
    refine wp_read fun w₂ hrely₂ _ => ?_
    have hnext₂ := fun r => (hnext₁ r).after hrely₂ (List.nil_subset _)
    split
    · rw [Prog.bind_assoc]
      refine wp_unlock fun w₃ hrely₃ _ => ⟨fun _ => trivial, ?_⟩
      rw [dropLock_cons_self]
      exact wp_of_later ((hnext₂ (-1)).after hrely₃ (List.nil_subset _))
    · rw [Prog.bind_assoc]
      refine wp_lock fun w₃ hrely₃ _ => ⟨below_nil.cons (by simp [rank]), fun _ => ?_⟩
      have hnext₃ := fun r => (hnext₂ r).after hrely₃ (List.nil_subset _)
      rw [Prog.bind_assoc]
      refine wp_fileStep (fun _ _ _ _ => fileStep_setCount _) fun w₄ hrely₄ _ => ?_
      have hnext₄ := fun r => (hnext₃ r).after hrely₄ (List.nil_subset _)
      simp only [Prog.bind_assoc]
      refine wp_read fun w₅ hrely₅ _ => ?_
      have hnext₅ := fun r => (hnext₄ r).after hrely₅ (List.nil_subset _)
      -- the handle is given back with or without a signal
      have hclose : ∀ w₆, (∀ r, DirLater opensOnly [] (DirWp opensOnly may Q (k r) []) w₆) →
          DirWp opensOnly may Q
            ((Prog.modify fun fs : FS => fs.setHandleState h .free).bind fun _ =>
              (unlock Lock.openFilesMutex).bind fun _ =>
                (unlock (Lock.openFile h)).bind fun _ => (ret 0).bind k)
            [(.openFilesMutex, .write), (.openFile h, .read)] w₆ := by
        intro w₆ hnext₆
        refine wp_modify_own (fun _ => rfl)
          (fun w' _ hinv' _ => hinv'.setHandleState hcloses h .free) (fun _ _ hg => hg.of_nil)
          fun w₇ hrely₇ _ => ?_
        have hnext₇ := fun r => (hnext₆ r).after hrely₇ (List.nil_subset _)
        refine wp_unlock fun w₈ hrely₈ _ => ⟨fun _ => trivial, ?_⟩
        have hnext₈ := fun r => (hnext₇ r).after hrely₈ (List.nil_subset _)
        rw [dropLock_cons_self]
        refine wp_unlock fun w₉ hrely₉ _ => ⟨fun _ => trivial, ?_⟩
        rw [dropLock_cons_self]
        exact wp_of_later ((hnext₈ 0).after hrely₉ (List.nil_subset _))
      split
      · simp only [Prog.bind_assoc]
        refine wp_wakeOne fun w₆ hrely₆ _ _ => hclose w₆ fun r =>
          (hnext₅ r).after hrely₆ (List.nil_subset _)
      · exact hclose w₅ hnext₅

/-! ## Blocks of a file -/

theorem FileStep.trans {fs fs' fs'' : FS} (h : FileStep fs fs') (h' : FileStep fs' fs'') :
    FileStep fs fs'' where
  states := h'.states.trans h.states
  bytes x hx := (h'.bytes x hx).trans (h.bytes x hx)
  unlisted n hn hlisted :=
    (h'.unlisted n hn (mt (Listed.congr h.bytes).mp hlisted)).trans (h.unlisted n hn hlisted)
  rootType := h'.rootType.trans h.rootType
  rootData := h'.rootData.trans h.rootData
  handles i := (h'.handles i).trans (h.handles i)
  marks := h'.marks.trans h.marks

/-- A step of a write leaves the root directory as it is. -/
def SparesRoot (fs fs' : FS) : Prop := ∀ x < blockSize, fs'.fsData x = fs.fsData x

instance decidableSparesRoot (fs fs' : FS) : Decidable (SparesRoot fs fs') :=
  Nat.decidableBallLT blockSize _

theorem fileStep_store? {fs fs' : FS} {a : Nat} {bs : List UInt8} (h : fs.store? a bs = some fs')
    (hroot : SparesRoot fs fs') : FileStep fs fs' := by
  unfold FS.store? at h
  split at h
  · cases h
    exact fileStep_setData hroot
  · cases h

section Blocks

variable {n : Fin inodeTableSize}

/-- The indirect block of a file changes. -/
theorem fileStep_setIndirect {fs : FS} (hn : FileNumber fs ((n : Nat) : Int)) (b : Int) :
    FileStep fs (fs.setInode n { fs.inodeTable n with iIndirectDataBlock := b }) :=
  fileStep_setInode hn fun hroot => by subst hroot; exact ⟨rfl, rfl⟩

theorem writeDirect_wp {k : Option (Fin dataBlocks) → Op α} (i : Fin maxDirectBlocks)
    (hheld : Below held 5) (hn : FileNumber w.state ((n : Nat) : Int))
    (hnext : ∀ r, DirLater opensOnly held (DirWp opensOnly may Q (k r) held) w) :
    DirWp opensOnly may Q ((writeDirect n i).bind k) held w := by
  rw [writeDirect]
  simp only [bind_eq, pure_eq, Prog.bind_assoc]
  refine wp_read fun w₁ hrely₁ hinv₁ => ?_
  have hnext₁ := fun r => (hnext r).rely hrely₁
  have hn₁ := hn.keeps (rely_entries hrely₁)
  have hget : ∀ (there : Bool) w₂, (dirDiscipline opensOnly).Rely held w₁ w₂ →
      DirWp opensOnly may Q ((if there then
          Prog.read fun fs : FS => dataBlockGet ((fs.inodeTable n).iDataBlock i)
        else ret none).bind k) held w₂ := by
    intro there w₂ hrely₂
    split
    · refine wp_read fun w₃ hrely₃ _ => wp_of_later ((hnext₁ _).rely (hrely₂.trans hrely₃))
    · exact wp_of_later ((hnext₁ none).rely hrely₂)
  split
  · rename_i hempty
    -- the root directory has its first block, so it is not that one which is allocated
    have hother : n = 0 → i ≠ 0 := by
      rintro rfl rfl
      rw [hinv₁.rootData] at hempty
      exact absurd hempty (by decide)
    simp only [Prog.bind_assoc]
    refine dataBlockAlloc_wp hheld fun b w₂ hrely₂ _ => ?_
    refine wp_fileStep (fun w' hrely' _ _ => fileStep_setInode
      (hn₁.keeps (rely_entries (hrely₂.trans hrely'))) fun hroot => ?_) fun w₃ hrely₃ _ => ?_
    · subst hroot
      exact ⟨rfl, Function.update_of_ne (Ne.symm (hother rfl)) ..⟩
    · exact hget _ w₃ (hrely₂.trans hrely₃)
  · exact hget true w₁ Relation.ReflTransGen.refl

theorem clearIndirect_wp {k : Unit → Op α} (hmay : ∀ fs fs', may fs fs' → SparesRoot fs fs')
    (table : Fin dataBlocks) (count : Nat)
    (hnext : DirLater opensOnly held (DirWp opensOnly may Q (k ()) held) w) :
    DirWp opensOnly may Q ((clearIndirect table count).bind k) held w := by
  induction count generalizing k w with
  | zero => exact wp_of_later hnext
  | succ count ih =>
      rw [clearIndirect]
      simp only [bind_eq, Prog.bind_assoc]
      refine ih fun w₁ hrely₁ _ => ?_
      exact wp_fileStep? (fun _ _ _ _ hstore hallowed => fileStep_store? hstore (hmay _ _ hallowed))
        (hnext.rely hrely₁)

theorem writeIndirectTable_wp {k : Option (Fin dataBlocks) → Op α}
    (hmay : ∀ fs fs', may fs fs' → SparesRoot fs fs')
    (hheld : Below held 5) (hn : FileNumber w.state ((n : Nat) : Int))
    (hnext : ∀ r, DirLater opensOnly held (DirWp opensOnly may Q (k r) held) w) :
    DirWp opensOnly may Q ((writeIndirectTable n).bind k) held w := by
  rw [writeIndirectTable]
  simp only [bind_eq, pure_eq, Prog.bind_assoc]
  refine wp_read fun w₁ hrely₁ _ => ?_
  have hnext₁ := fun r => (hnext r).rely hrely₁
  have hn₁ := hn.keeps (rely_entries hrely₁)
  have hget : ∀ (there : Bool) w₂, (dirDiscipline opensOnly).Rely held w₁ w₂ →
      DirWp opensOnly may Q ((if there then
          Prog.read fun fs : FS => dataBlockGet (fs.inodeTable n).iIndirectDataBlock
        else ret none).bind k) held w₂ := by
    intro there w₂ hrely₂
    split
    · refine wp_read fun w₃ hrely₃ _ => wp_of_later ((hnext₁ _).rely (hrely₂.trans hrely₃))
    · exact wp_of_later ((hnext₁ none).rely hrely₂)
  split
  · simp only [Prog.bind_assoc]
    refine dataBlockAlloc_wp hheld fun b w₂ hrely₂ _ => ?_
    refine wp_fileStep (fun w' hrely' _ _ => fileStep_setIndirect
      (hn₁.keeps (rely_entries (hrely₂.trans hrely'))) b) fun w₃ hrely₃ _ => ?_
    split
    · exact hget false w₃ (hrely₂.trans hrely₃)
    · rw [Prog.bind_assoc]
      generalize blockSize - maxDirectBlocks = count
      refine clearIndirect_wp hmay _ count fun w₄ hrely₄ _ => ?_
      exact hget true w₄ ((hrely₂.trans hrely₃).trans hrely₄)
  · exact hget true w₁ Relation.ReflTransGen.refl

theorem writeIndirect_wp {k : Option (Fin dataBlocks) → Op α}
    (hmay : ∀ fs fs', may fs fs' → SparesRoot fs fs') (i : Nat)
    (hheld : Below held 5) (hn : FileNumber w.state ((n : Nat) : Int))
    (hnext : ∀ r, DirLater opensOnly held (DirWp opensOnly may Q (k r) held) w) :
    DirWp opensOnly may Q ((writeIndirect n i).bind k) held w := by
  rw [writeIndirect]
  simp only [bind_eq, pure_eq, Prog.bind_assoc]
  refine writeIndirectTable_wp hmay hheld hn fun table w₁ hrely₁ _ => ?_
  have hnext₁ := fun r => (hnext r).rely hrely₁
  split
  · exact wp_of_later (hnext₁ none)
  · split
    · trivial
    · rename_i a _
      simp only [Prog.bind_assoc]
      refine wp_read fun w₂ hrely₂ _ => ?_
      have hnext₂ := fun r => (hnext₁ r).rely hrely₂
      have hget : ∀ (there : Bool) w₃, (dirDiscipline opensOnly).Rely held w₂ w₃ →
          DirWp opensOnly may Q ((if there then Prog.read fun fs : FS => dataBlockGet (fs.intAt a)
            else ret none).bind k) held w₃ := by
        intro there w₃ hrely₃
        split
        · refine wp_read fun w₄ hrely₄ _ => wp_of_later ((hnext₂ _).rely (hrely₃.trans hrely₄))
        · exact wp_of_later ((hnext₂ none).rely hrely₃)
      split
      · simp only [Prog.bind_assoc]
        refine dataBlockAlloc_wp hheld fun b w₃ hrely₃ _ => ?_
        refine wp_fileStep? (fun _ _ _ _ hstore hallowed =>
          fileStep_store? hstore (hmay _ _ hallowed)) fun w₄ hrely₄ _ => ?_
        exact hget _ w₄ (hrely₃.trans hrely₄)
      · exact hget true w₂ Relation.ReflTransGen.refl

theorem writeBlock_wp {k : Option (Fin dataBlocks) → Op α}
    (hmay : ∀ fs fs', may fs fs' → SparesRoot fs fs') (i : Nat)
    (hheld : Below held 5) (hn : FileNumber w.state ((n : Nat) : Int))
    (hnext : ∀ r, DirLater opensOnly held (DirWp opensOnly may Q (k r) held) w) :
    DirWp opensOnly may Q ((writeBlock n i).bind k) held w := by
  unfold writeBlock
  split
  · exact writeDirect_wp _ hheld hn hnext
  · exact writeIndirect_wp hmay i hheld hn hnext

end Blocks

/-! ## Write and read -/

section Calls

variable {n : Fin inodeTableSize} {h : Fin maxOpenFiles}

/-- The locks of a read or a write. -/
abbrev fileLocks (n : Fin inodeTableSize) (h : Fin maxOpenFiles) : List (Lock × Mode) :=
  [(.inode n, .write), (.openFile h, .write)]

theorem below_fileLocks : Below (fileLocks n h) 5 :=
  (below_nil.cons (by simp [rank])).cons ((rank_inode_le n).trans_lt (by decide))

theorem leave_wp {β : Type} {k : β → Op α} {value : β}
    (hnext : DirLater opensOnly [] (DirWp opensOnly may Q (k value) []) w) :
    DirWp opensOnly may Q ((leave h n value).bind k) (fileLocks n h) w := by
  rw [leave]
  simp only [bind_eq, pure_eq, Prog.bind_assoc]
  refine wp_unlock fun w₁ hrely₁ _ => ⟨fun _ => trivial, ?_⟩
  have hnext₁ := hnext.after hrely₁ (List.nil_subset _)
  rw [dropLock_cons_of_ne (by simp), dropLock_cons_self]
  refine wp_unlock fun w₂ hrely₂ _ => ⟨fun _ => trivial, ?_⟩
  rw [dropLock_cons_self]
  exact wp_of_later (hnext₁.after hrely₂ (List.nil_subset _))

theorem fileStep_advance {fs : FS} (hn : FileNumber fs ((n : Nat) : Int)) (count : Nat) :
    FileStep fs (fs.advance h n count) :=
  (fileStep_setOffset h _).trans (fileStep_setInode hn fun hroot => by subst hroot; exact ⟨rfl, rfl⟩)

/-- One iteration of a write: the bytes are copied in and the handle moves. -/
theorem copyIn_wp {k : Unit → Op α} (hmay : ∀ fs fs', may fs fs' → SparesRoot fs fs')
    (b : Fin dataBlocks) (bytes : List UInt8) (count : Nat)
    (hn : FileNumber w.state ((n : Nat) : Int))
    (hnext : DirLater opensOnly held (DirWp opensOnly may Q (k ()) held) w) :
    DirWp opensOnly may Q ((copyIn h b bytes).bind fun _ =>
      (Prog.modify fun fs : FS => fs.advance h n count).bind k) held w := by
  rw [copyIn]
  refine wp_fileStep? (fun _ _ _ _ hstore hallowed => fileStep_store? hstore (hmay _ _ hallowed))
    fun w₁ hrely₁ _ => ?_
  refine wp_fileStep (fun w' hrely' _ _ =>
    fileStep_advance (hn.keeps (rely_entries (hrely₁.trans hrely'))) count) ?_
  exact hnext.rely hrely₁

theorem writeLoop_wp {k : Int → Op α} (hmay : ∀ fs fs', may fs fs' → SparesRoot fs fs')
    (last left i : Nat) (buffer : List UInt8) (written : Nat)
    (hn : FileNumber w.state ((n : Nat) : Int))
    (hnext : ∀ r, DirLater opensOnly [] (DirWp opensOnly may Q (k r) []) w) :
    DirWp opensOnly may Q ((writeLoop h n last left i buffer written).bind k) (fileLocks n h) w := by
  induction left generalizing i buffer written w with
  | zero => exact leave_wp (hnext _)
  | succ left ih =>
      rw [writeLoop]
      simp only [bind_eq, Prog.bind_assoc]
      refine writeBlock_wp hmay i below_fileLocks hn fun block w₁ hrely₁ _ => ?_
      have hn₁ := hn.keeps (rely_entries hrely₁)
      have hnext₁ := fun r => (hnext r).after hrely₁ (List.nil_subset _)
      split
      · exact leave_wp (hnext₁ (-1))
      · rename_i b
        simp only [Prog.bind_assoc]
        refine wp_read fun w₂ hrely₂ _ => ?_
        have hn₂ := hn₁.keeps (rely_entries hrely₂)
        have hnext₂ := fun r => (hnext₁ r).after hrely₂ (List.nil_subset _)
        split
        · simp only [Prog.bind_assoc]
          refine copyIn_wp hmay b _ _ hn₂ fun w₃ hrely₃ _ => ?_
          exact ih _ _ _ (hn₂.keeps (rely_entries hrely₃))
            fun r => (hnext₂ r).after hrely₃ (List.nil_subset _)
        · split
          · simp only [Prog.bind_assoc]
            refine copyIn_wp hmay b _ _ hn₂ fun w₃ hrely₃ _ => ?_
            exact leave_wp ((hnext₂ _).after hrely₃ (List.nil_subset _))
          · simp only [Prog.bind_assoc]
            refine copyIn_wp hmay b _ _ hn₂ fun w₃ hrely₃ _ => ?_
            exact ih _ _ _ (hn₂.keeps (rely_entries hrely₃))
              fun r => (hnext₂ r).after hrely₃ (List.nil_subset _)

theorem tfsWrite_wp {k : Int → Op α} {fhandle : Int} {buffer : List UInt8}
    (hmay : ∀ fs fs', may fs fs' → SparesRoot fs fs') (hbuffer : buffer ≠ [])
    (hnext : ∀ r, DirLater opensOnly [] (DirWp opensOnly may Q (k r) []) w) :
    DirWp opensOnly may Q ((tfsWrite fhandle buffer).bind k) [] w := by
  unfold tfsWrite
  split
  · exact wp_of_later (hnext (-1))
  · rename_i h _
    simp only [bind_eq, pure_eq, Prog.bind_assoc]
    refine wp_lock fun w₁ hrely₁ _ => ⟨below_nil, fun _ => ?_⟩
    have hnext₁ := fun r => (hnext r).rely hrely₁
    refine wp_read fun w₂ hrely₂ hinv₂ => ?_
    have hnext₂ := fun r => (hnext₁ r).after hrely₂ (List.nil_subset _)
    split
    · simp only [Prog.bind_assoc]
      refine wp_unlock fun w₃ hrely₃ _ => ⟨fun _ => trivial, ?_⟩
      rw [dropLock_cons_self]
      exact wp_of_later ((hnext₂ (-1)).after hrely₃ (List.nil_subset _))
    · rename_i n hn
      have hn₂ := hinv₂.handles h
      rw [index?_eq_some.mp hn] at hn₂
      simp only [Prog.bind_assoc]
      refine wp_lock fun w₃ hrely₃ _ =>
        ⟨(below_nil.cons (by simp [rank])).mono (two_le_rank_inode n), fun _ => ?_⟩
      have hnext₃ := fun r => (hnext₂ r).after hrely₃ (List.nil_subset _)
      rw [if_neg (by simpa using hbuffer), Prog.bind_assoc]
      refine wp_read fun w₄ hrely₄ _ => ?_
      exact writeLoop_wp hmay _ _ _ _ _
        (FileNumber.keeps (hn₂.keeps (rely_entries hrely₃)) (rely_entries hrely₄))
        fun r => (hnext₃ r).after hrely₄ (List.nil_subset _)

/-- Finding the block of a read changes nothing. -/
theorem readBlock_wp {k : Option (Fin dataBlocks) → Op α} (i : Nat)
    (hnext : ∀ r, DirLater opensOnly held (DirWp opensOnly may Q (k r) held) w) :
    DirWp opensOnly may Q ((readBlock n i).bind k) held w := by
  unfold readBlock
  split
  · refine wp_read fun w₁ hrely₁ _ => wp_of_later ((hnext _).rely hrely₁)
  · simp only [bind_eq, Prog.bind_assoc]
    refine wp_read fun w₁ hrely₁ _ => ?_
    have hnext₁ := fun r => (hnext r).rely hrely₁
    split
    · exact wp_of_later (hnext₁ none)
    · split
      · trivial
      · refine wp_read fun w₂ hrely₂ _ => wp_of_later ((hnext₁ _).rely hrely₂)

theorem copyOut_wp {k : List UInt8 → Op α} (b : Fin dataBlocks) (offset count : Nat)
    (hnext : ∀ r, DirLater opensOnly held (DirWp opensOnly may Q (k r) held) w) :
    DirWp opensOnly may Q ((copyOut h b offset count).bind k) held w := by
  unfold copyOut
  split
  · simp only [bind_eq, Prog.bind_assoc]
    refine wp_read fun w₁ hrely₁ _ => ?_
    refine wp_fileStep (fun _ _ _ _ => fileStep_setOffset h _) fun w₂ hrely₂ _ => ?_
    exact wp_of_later ((hnext _).rely (hrely₁.trans hrely₂))
  · trivial

theorem readLoop_wp {k : Int × List UInt8 → Op α} (last left i toRead : Nat) (bytes : List UInt8)
    (hnext : ∀ r, DirLater opensOnly [] (DirWp opensOnly may Q (k r) []) w) :
    DirWp opensOnly may Q ((readLoop h n last left i toRead bytes).bind k) (fileLocks n h) w := by
  induction left generalizing i toRead bytes w with
  | zero => exact leave_wp (hnext _)
  | succ left ih =>
      rw [readLoop]
      simp only [bind_eq, Prog.bind_assoc]
      refine readBlock_wp i fun block w₁ hrely₁ _ => ?_
      have hnext₁ := fun r => (hnext r).after hrely₁ (List.nil_subset _)
      split
      · exact leave_wp (hnext₁ _)
      · rename_i b
        simp only [Prog.bind_assoc]
        refine wp_read fun w₂ hrely₂ _ => ?_
        have hnext₂ := fun r => (hnext₁ r).after hrely₂ (List.nil_subset _)
        split
        · simp only [Prog.bind_assoc]
          refine copyOut_wp b _ _ fun more w₃ hrely₃ _ => ?_
          exact ih _ _ _ fun r => (hnext₂ r).after hrely₃ (List.nil_subset _)
        · split
          · simp only [Prog.bind_assoc]
            refine copyOut_wp b _ _ fun more w₃ hrely₃ _ => ?_
            exact leave_wp ((hnext₂ _).after hrely₃ (List.nil_subset _))
          · simp only [Prog.bind_assoc]
            generalize blockSize = size
            refine copyOut_wp b _ _ fun more w₃ hrely₃ _ => ?_
            exact ih _ _ _ fun r => (hnext₂ r).after hrely₃ (List.nil_subset _)

theorem tfsRead_wp {k : Int × List UInt8 → Op α} {fhandle : Int} {len : Nat}
    (hnext : ∀ r, DirLater opensOnly [] (DirWp opensOnly may Q (k r) []) w) :
    DirWp opensOnly may Q ((tfsRead fhandle len).bind k) [] w := by
  unfold tfsRead
  split
  · exact wp_of_later (hnext _)
  · rename_i h _
    simp only [bind_eq, pure_eq, Prog.bind_assoc]
    refine wp_lock fun w₁ hrely₁ _ => ⟨below_nil, fun _ => ?_⟩
    have hnext₁ := fun r => (hnext r).rely hrely₁
    refine wp_read fun w₂ hrely₂ _ => ?_
    have hnext₂ := fun r => (hnext₁ r).after hrely₂ (List.nil_subset _)
    split
    · simp only [Prog.bind_assoc]
      refine wp_unlock fun w₃ hrely₃ _ => ⟨fun _ => trivial, ?_⟩
      rw [dropLock_cons_self]
      exact wp_of_later ((hnext₂ _).after hrely₃ (List.nil_subset _))
    · rename_i n hn
      simp only [Prog.bind_assoc]
      refine wp_lock fun w₃ hrely₃ _ =>
        ⟨(below_nil.cons (by simp [rank])).mono (two_le_rank_inode n), fun _ => ?_⟩
      have hnext₃ := fun r => (hnext₂ r).after hrely₃ (List.nil_subset _)
      refine wp_read fun w₄ hrely₄ _ => ?_
      have hnext₄ := fun r => (hnext₃ r).after hrely₄ (List.nil_subset _)
      refine wp_read fun w₅ hrely₅ _ => ?_
      have hnext₅ := fun r => (hnext₄ r).after hrely₅ (List.nil_subset _)
      split
      · exact leave_wp (hnext₅ _)
      · exact readLoop_wp _ _ _ _ _ hnext₅

end Calls

/-! ## All calls together -/

/-- Every call but a write of no bytes. -/
def NonEmptyWrite : Call → Prop
  | .write _ buffer => buffer ≠ []
  | _ => True

instance : DecidablePred NonEmptyWrite
  | .lookup _ => isTrue trivial
  | .open _ _ => isTrue trivial
  | .close _ => isTrue trivial
  | .write _ buffer => inferInstanceAs (Decidable (buffer ≠ []))
  | .read _ _ => isTrue trivial

/-- The steps of this call spare the root directory if they are those of a write. -/
def WritesSpareRoot (c : Call) (fs fs' : FS) : Prop :=
  match c with
  | .write _ _ => SparesRoot fs fs'
  | _ => True

instance : ∀ c fs fs', Decidable (WritesSpareRoot c fs fs')
  | .lookup _, _, _ => isTrue trivial
  | .open _ _, _, _ => isTrue trivial
  | .close _, _, _ => isTrue trivial
  | .write _ _, fs, fs' => decidableSparesRoot fs fs'
  | .read _ _, _, _ => isTrue trivial

/-- No step of a write reaches the block of the root directory. -/
def SparingStep {T : Type} (cfg : Config T FS Lock Cond Call Ret) (t : T)
    (cfg' : Config T FS Lock Cond Call Ret) : Prop :=
  Starts NonEmptyWrite cfg t cfg' ∧
    ∀ task ∈ cfg.task t, WritesSpareRoot task.call cfg.state cfg'.state

instance {T : Type} : ∀ (cfg : Config T FS Lock Cond Call Ret) t cfg',
    Decidable (SparingStep cfg t cfg') := fun cfg t cfg' =>
  inferInstanceAs (Decidable (Starts NonEmptyWrite cfg t cfg' ∧
    ∀ task ∈ cfg.task t, WritesSpareRoot task.call cfg.state cfg'.state))

/-- The calls only promise to keep the discipline. -/
def orderContract (T : Type) : Contract T FS Lock Cond Call Ret Unit where
  allowed := NonEmptyWrite
  may := WritesSpareRoot
  post _ _ _ _ := True
  weight _ _ := ()
  J _ _ := True

theorem order_meets {T : Type} : Meets (dirDiscipline False) (orderContract T) exec where
  start := by
    intro c log w rest hallowed _ _ _
    have hret : ∀ r : Ret, DirLater False []
        (DirWp False ((orderContract T).may c) ((orderContract T).Post c log) (.ret r) []) w :=
      fun r w₁ _ _ => wp_ret fun _ _ _ => ⟨rfl, rfl, trivial⟩
    cases c with
    | lookup name =>
        rw [exec]
        by_cases hvalid : Part2.validPathname name = true
        · exact tfsLookup_wp below_nil hvalid (fun r w₁ hrely₁ hinv₁ _ => hret _ w₁ hrely₁ hinv₁)
            fun _ => hret _
        · rw [tfsLookup, if_neg hvalid]
          exact wp_of_later (hret _)
    | «open» name flags =>
        rw [exec]
        refine tfsOpen_wp (fun hno => hno.elim) ?_ ?_
        · exact fun w₁ => wp_ret fun _ _ _ => ⟨rfl, rfl, trivial⟩
        · exact fun h w₁ _ => wp_ret fun _ _ _ => ⟨rfl, rfl, trivial⟩
    | close fhandle =>
        rw [exec, tfsClose]
        exact removeFromOpenFileTable_wp id fun r => hret _
    | write fhandle buffer =>
        rw [exec]
        exact tfsWrite_wp (fun _ _ h => h) hallowed fun r => hret _
    | read fhandle len =>
        rw [exec]
        exact tfsRead_wp fun r => hret _
  done := fun _ _ _ _ => trivial
  J_guar := fun _ _ _ _ _ => trivial
  J_quieter := fun _ _ _ => trivial
  single := fun hsingle => hsingle.elim

theorem rank_lt_seven (l : Lock) : rank l < 7 := by
  cases l with
  | inode n => exact (rank_inode_le n).trans_lt (by decide)
  | _ => simp [rank]

/-- In every run of lookups, opens, closes, reads and non-empty writes in which no write
reaches the root directory's block, whatever the schedule, no set of threads waits for locks
that are all held inside the set. -/
theorem no_lock_cycle {T : Type} [DecidableEq T] [Fintype T]
    {cfg : Config T FS Lock Cond Call Ret} (hreach : Reach exec machine.init SparingStep cfg)
    {threads : Set T} (hne : threads.Nonempty) : ¬ cfg.Deadlocked threads := by
  have hfollows : ∀ cfg t cfg', SparingStep (T := T) cfg t cfg' →
      Follows (dirDiscipline False) (orderContract T) cfg t cfg' := by
    intro cfg t cfg' hstep
    exact ⟨fun task hidle htask => hstep.1 hidle task htask, fun task htask => hstep.2 task htask,
      fun _ _ hshared => absurd trivial hshared⟩
  rcases hreach.sound order_meets (dirInv_start (dirInv_init False)) (fun _ => trivial) trivial
    hfollows with ⟨b, g, hsound⟩
  exact hsound.not_deadlocked rank 7 rank_lt_seven (fun _ _ horder => horder) hne

/-- A thread creates a file and another one waits for `open_file_lock`. -/
theorem no_lock_cycle_two :
    ∃ cfg : Config (Fin 2) FS Lock Cond Call Ret, cfg.Holds 0 .openFileLock ∧
      cfg.WaitsFor 1 .openFileLock ∧ ¬ cfg.Deadlocked Set.univ := by
  have hplay : ((Config.init initialFS).play exec SparingStep
      ((0, some (.open pathA 1)) :: List.replicate 20 (0, none))).map
      (fun cfg : Config (Fin 2) FS Lock Cond Call Ret =>
        decide ((.openFileLock, .write) ∈ cfg.held 0 ∧ (cfg.task 1).isNone)) = some true := by
    decide +kernel
  rcases Option.map_eq_some_iff.mp hplay with ⟨cfg, hplay, hfacts⟩
  rcases of_decide_eq_true hfacts with ⟨hheld, hidle⟩
  have hidle : cfg.task 1 = none := Option.isNone_iff_eq_none.mp hidle
  have hreach : Reach exec machine.init SparingStep cfg := by
    rw [machine_init]
    exact Reach.init.play hplay
  have hcall : Reach exec machine.init SparingStep
      (cfg.put 1 ⟨.open pathA 1, exec (.open pathA 1), cfg.log.length, false⟩) := by
    refine hreach.step (Step.call hidle) ⟨fun _ task htask => ?_, fun task htask => ?_⟩
    · rw [Config.put_task_self] at htask
      cases htask
      trivial
    · rw [hidle] at htask
      cases htask
  refine ⟨cfg.put 1 ⟨.open pathA 1, exec (.open pathA 1), cfg.log.length, false⟩,
    ⟨.write, hheld⟩, ⟨_, _, _, _, Config.put_task_self⟩, no_lock_cycle hcall Set.univ_nonempty⟩

end TecnicoFS.Part1
