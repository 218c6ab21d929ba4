import TecnicoFS.Part1.Operations

/-!
# Part 1: the state after `tfs_init`

`tfs_init` makes i-node 0 the root directory and gives it block 0; nothing else is in use.
-/

namespace TecnicoFS.Part1

open Threads Threads.Prog
open Part2 (rootDirInum blockSize dataBlocks inodeTableSize maxDirEntries dataBlockGet)

/-- The i-node of the root directory. -/
def rootInode : Inode := ⟨.tDirectory, blockSize, fun _ => 0, -1⟩

/-- The state `tfs_init` leaves. -/
def initialFS : FS where
  inodeTable := Function.update boot.inodeTable 0 rootInode
  freeinodeTs := Function.update boot.freeinodeTs 0 .taken
  fsData := Part2.clearEntries boot.fsData 0 maxDirEntries
  freeBlocks := Function.update boot.freeBlocks 0 .taken
  openFileTable := boot.openFileTable
  freeOpenFileEntries := boot.freeOpenFileEntries
  openFilesCount := 0

theorem finRange_inodes : List.finRange inodeTableSize =
    0 :: (List.finRange 49).map Fin.succ := List.finRange_succ ..

theorem finRange_blocks : List.finRange dataBlocks =
    0 :: (List.finRange 1023).map Fin.succ := List.finRange_succ ..

variable {fs : FS}

theorem dataBlockAlloc_eval_zero (hfree : fs.freeBlocks 0 = .free) :
    dataBlockAlloc.eval fs = some (0, fs.setBlockState 0 .taken) := by
  rw [dataBlockAlloc_eq, finRange_blocks, allocFirst]
  simp [lock, unlock, Prog.read, Prog.modify, Prog.eval, hfree]

theorem initInode_eval_root (hfree : fs.freeBlocks 0 = .free) :
    (initInode 0 .tDirectory).eval fs = some (0, clearDirEntries
      ((fs.setBlockState 0 .taken).setInode 0
        ⟨.tDirectory, blockSize, Function.update (fs.inodeTable 0).iDataBlock 0 0, -1⟩) 0) := by
  have hblock : index? dataBlocks 0 = some 0 := index?_eq_some.mpr rfl
  rw [initInode]
  simp [Prog.modify, Prog.eval, Prog.eval_bind, dataBlockAlloc_eval_zero, hfree, dataBlockGet,
    hblock, FS.setInode, FS.setBlockState]

theorem tfsInit_eval : tfsInit.eval boot = some (0, initialFS) := by
  have hroot : (0 : Int) = rootDirInum := rfl
  rw [tfsInit, stateInit, inodeCreate, finRange_inodes, createFirst]
  simp [lock, unlock, Prog.read, Prog.modify, Prog.eval, Prog.eval_bind, initInode_eval_root,
    boot, hroot]
  rfl

theorem machine_init : machine.init = initialFS := by
  rw [machine, tfsInit_eval]
  rfl

/-- The path `/a`. -/
def pathA : CString := ⟨[47, 97], by simp⟩

/-- The path `/b`. -/
def pathB : CString := ⟨[47, 98], by simp⟩

/-- The path `/c`. -/
def pathC : CString := ⟨[47, 99], by simp⟩

/-- The path `/d`. -/
def pathD : CString := ⟨[47, 100], by simp⟩

end TecnicoFS.Part1
