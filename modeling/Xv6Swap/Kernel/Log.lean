import Xv6Swap.Kernel.Bio
import Xv6Swap.Lib.Words

/-!
# The log

`kernel/log.c`.  The in-memory header `log.lh` is the list of the blocks logged so far.  The loops
of `write_log` and `install_trans` are cut into one function for each iteration: an iteration ends
with the one disk write it makes, and a crash can come between any two of them.

`begin_op` sleeps until the log is not committing and has room; `canBegin` is the test that it
makes, and `begin_op` itself is what happens once the test succeeds.
-/

namespace Xv6Swap

open Run

/-- `struct log` and the buffer cache below it.  `start` and `size` are the superblock's
`logstart` and `nlog`. -/
structure Log where
  bio : Bio
  lh : List ℕ
  outstanding : ℕ
  committing : Bool

/-- `struct logheader` read from the header block: `int n; int block[LOGSIZE]`. -/
def headDecode (data : Mem) : List ℕ :=
  let n := data.loadLE 4 0
  if n < 2 ^ 31 then data.loadWords 4 4 n else []

/-- The header written into a block: `n` and the first `n` entries. -/
def headEncode (data : Mem) (lh : List ℕ) : Mem := data.storeWords 4 0 (lh.length :: lh)

namespace Log

/-- Run a program of the buffer cache. -/
def onBio {α : Type} (m : Run Bio FsPanic α) : Run Log FsPanic α :=
  zoom bio (fun s l => { l with bio := s }) m

/-- The test of `begin_op`. -/
def canBegin (l : Log) : Bool :=
  !l.committing && decide (l.lh.length + (l.outstanding + 1) * maxopblocks ≤ logsize)

end Log

open Log

/-- Called at the start of each file-system call, once `canBegin` holds. -/
def beginOp : Run Log FsPanic Unit :=
  modify fun l => { l with outstanding := l.outstanding + 1 }

/-- The caller has modified the buffer and is done with it: record the block and pin it. -/
def logWrite (sb : Superblock) (i : ℕ) : Run Log FsPanic Unit := do
  let l ← read id
  if l.lh.length ≥ logsize ∨ l.lh.length ≥ sb.nlog - 1 then stop .tooBig
  else if l.outstanding < 1 then stop .outsideOfTrans
  else
    let blockno := (l.bio.buf i).blockno
    -- log absorption
    if blockno ∈ l.lh then pure ()
    else do
      onBio (bpin i)
      modify fun l => { l with lh := l.lh ++ [blockno] }

/-- One iteration of `write_log`: copy a modified block from the cache to the log. -/
def writeLogBlock (sb : Superblock) (tail : ℕ) : Run Log FsPanic Unit := do
  let l ← read id
  let dst ← onBio (bread rootdev (sb.logstart + tail + 1))
  let src ← onBio (bread rootdev (l.lh.getD tail 0))
  let data ← read fun l => (l.bio.buf src).data
  onBio (bset dst data)
  onBio (bwrite dst)
  onBio (brelse src)
  onBio (brelse dst)

/-- Write the in-memory log header to disk. -/
def writeHead (sb : Superblock) : Run Log FsPanic Unit := do
  let l ← read id
  let buf ← onBio (bread rootdev sb.logstart)
  let data ← read fun l => (l.bio.buf buf).data
  onBio (bset buf (headEncode data l.lh))
  onBio (bwrite buf)
  onBio (brelse buf)

/-- Read the log header from disk. -/
def readHead (sb : Superblock) : Run Log FsPanic Unit := do
  let buf ← onBio (bread rootdev sb.logstart)
  let data ← read fun l => (l.bio.buf buf).data
  modify fun l => { l with lh := headDecode data }
  onBio (brelse buf)

/-- One iteration of `install_trans`: copy a committed block from the log to its home. -/
def installBlock (sb : Superblock) (recovering : Bool) (tail : ℕ) : Run Log FsPanic Unit := do
  let l ← read id
  let lbuf ← onBio (bread rootdev (sb.logstart + tail + 1))
  let dbuf ← onBio (bread rootdev (l.lh.getD tail 0))
  let data ← read fun l => (l.bio.buf lbuf).data
  onBio (bset dbuf data)
  onBio (bwrite dbuf)
  if recovering then pure () else onBio (bunpin dbuf)
  onBio (brelse lbuf)
  onBio (brelse dbuf)

/-- `log.lh.n = 0`. -/
def clearHead : Run Log FsPanic Unit := modify fun l => { l with lh := [] }

/-- Commit the current transaction. -/
def commit (sb : Superblock) : Run Log FsPanic Unit := do
  let l ← read id
  if l.lh.length > 0 then do
    each (writeLogBlock sb) (List.range l.lh.length)
    writeHead sb
    each (installBlock sb false) (List.range l.lh.length)
    clearHead
    writeHead sb
  else pure ()

/-- The first half of `end_op`: whether this was the last outstanding operation, which has to
commit. -/
def endOpBegin : Run Log FsPanic Bool := do
  modify fun l => { l with outstanding := l.outstanding - 1 }
  let l ← read id
  if l.committing then stop .logCommitting
  else if l.outstanding = 0 then do
    modify fun l => { l with committing := true }
    pure true
  else pure false

/-- The last part of `end_op`, after a commit. -/
def endOpFinish : Run Log FsPanic Unit := modify fun l => { l with committing := false }

/-- Called at the end of each file-system call: commits if this was the last outstanding
operation. -/
def endOp (sb : Superblock) : Run Log FsPanic Unit := do
  let doCommit ← endOpBegin
  if doCommit then do
    commit sb
    endOpFinish
  else pure ()

/-- Redo a committed transaction after a crash. -/
def recoverFromLog (sb : Superblock) : Run Log FsPanic Unit := do
  readHead sb
  let l ← read id
  each (installBlock sb true) (List.range l.lh.length)
  clearHead
  writeHead sb

end Xv6Swap
