import TecnicoFS.Part1.Names
import Mathlib.Data.Fintype.Card

/-!
# Part 1: indices of tables and locks

`tfs_close` takes the lock of its handle before it checks the number, and `data_block_free` that of
its block; the number of an i-node is used for its lock before `inode_get` checks it, and also
where `inode_create` failed. In a consistent state every number in the directory is that of a file
and, with 23 entries for 50 i-nodes, `inode_create` never fails (`AllListed`). What is left are the
handle of `tfs_close` and the missing blocks that a truncation frees.
-/

namespace TecnicoFS.Part1

open Threads Threads.Prog
open Part2 (Call Ret rootDirInum validPathname hasFlag tfsOCreat tfsOTrunc tfsOAppend blockSize
  dataBlocks inodeTableSize maxOpenFiles maxDirEntries getOpenFileEntry inodeGet)

variable {fs fs' : FS} {n m : Fin inodeTableSize} {name : CString} {flags : BitVec 32} {r : Int}
  {c : Call} {tr : Machine.Trace Call Ret}

/-- A handle to close is one of the table, and a file to truncate has a block in every place that
the truncation frees. -/
def InRange (fs : FS) : Call → Prop
  | .open name flags => hasFlag flags tfsOTrunc = true →
      ∀ n : Fin inodeTableSize, (tfsLookup name).eval fs = some (((n : Nat) : Int), fs) →
        Truncates fs n
  | .close fhandle => getOpenFileEntry fhandle ≠ none
  | _ => True

/-! ## There is always an i-node -/

/-- Every i-node in use is that of the root directory or in an entry. -/
def AllListed (fs : FS) : Prop := ∀ n, fs.freeinodeTs n = .taken →
  n = 0 ∨ ∃ i, entryNumber fs i = ((n : Nat) : Int)

/-- The directory has fewer entries than there are i-nodes. -/
theorem AllListed.exists_free (hl : AllListed fs) : ∃ n, fs.freeinodeTs n = .free := by
  by_contra hnone
  have htaken : ∀ n, fs.freeinodeTs n = .taken := by
    intro n
    cases hn : fs.freeinodeTs n with
    | free => exact absurd ⟨n, hn⟩ hnone
    | taken => rfl
  have hentry : ∀ n : { n : Fin inodeTableSize // n ≠ 0 },
      ∃ i, entryNumber fs i = ((n.1 : Nat) : Int) :=
    fun n => (hl n.1 (htaken n.1)).resolve_left n.2
  choose entry hnumber using hentry
  have hinjective : Function.Injective entry := by
    intro n m heq
    have hsame := (hnumber n).symm.trans ((congrArg (entryNumber fs) heq).trans (hnumber m))
    exact Subtype.ext (Fin.ext (by omega))
  have hcard := Fintype.card_le_of_injective entry hinjective
  revert hcard
  decide

/-- `inode_create` answers with the number of an i-node. -/
theorem AllListed.inodeCreate (hl : AllListed fs)
    (heval : (inodeCreate .tFile).eval fs = some (r, fs')) : index? inodeTableSize r ≠ none := by
  rcases inodeCreate_eval fs with ⟨n, -, heval'⟩ | ⟨hfull, -⟩
  · rw [heval] at heval'
    cases heval'
    rw [index?_natCast]
    simp
  · rcases hl.exists_free with ⟨n, hfree⟩
    rw [hfull n] at hfree
    cases hfree

/-! ## The calls -/

end TecnicoFS.Part1
