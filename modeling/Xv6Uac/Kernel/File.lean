import Xv6Uac.Kernel.Fs

/-!
# Open files and pipes

The functions of `file.c` and `pipe.c`.
-/

namespace Xv6Uac

open Words Hoare

variable (cfg : Config)

/-! ## Pipes -/

/-- Close one end of a pipe. -/
def pipeclose (p : ℕ) (writable : Bool) : K Unit :=
  update fun s => { s with
    pipes := Function.update s.pipes p
      (if writable then { s.pipes p with writeopen := false }
       else { s.pipes p with readopen := false }) }

/-- The loop of `pipewrite`. -/
def pipewriteLoop (p : ℕ) : List UInt8 → K Bool
  | [] => pure true
  | c :: rest => do
    let pipe ← gets fun s => s.pipes p
    let me ← myproc
    if pipe.data.length = PIPESIZE then
      if pipe.readopen = false ∨ me.killed then pure false else fail .sleeping
    else do
      update fun s =>
        { s with pipes := Function.update s.pipes p { pipe with data := pipe.data ++ [c] } }
      pipewriteLoop p rest

/-- Write to a pipe. -/
def pipewrite (p : ℕ) (src : List UInt8) : K ℤ := do
  let done ← pipewriteLoop p src
  pure (if done then (src.length : ℤ) else -1)

/-- Read from a pipe. -/
def piperead (p n : ℕ) : K (ℤ × List UInt8) := do
  let pipe ← gets fun s => s.pipes p
  let me ← myproc
  if pipe.data = [] ∧ pipe.writeopen then
    if me.killed then pure (-1, []) else fail .sleeping
  else do
    update fun s =>
      { s with pipes := Function.update s.pipes p { pipe with data := pipe.data.drop n } }
    pure ((min n pipe.data.length : ℕ), pipe.data.take n)

/-! ## Open files -/

/-- Allocate a file structure. -/
def filealloc : K (Option ℕ) := do
  let free ← gets fun s => (List.range NFILE).find? fun f => (s.ftable f).ref = 0
  match free with
  | none => pure none
  | some f => do
    modifyFile f fun file => { file with ref := 1 }
    pure (some f)

/-- Take another reference to a file. -/
def filedup (f : ℕ) : K Unit := do
  let file ← gets fun s => s.ftable f
  if file.ref < 1 then panic .filedup
  else modifyFile f fun file => { file with ref := file.ref + 1 }

/-- What `fileclose` does with the last reference. -/
def fileRelease (ff : File) : K Unit :=
  match ff.type, ff.pipe, ff.ip with
  | .pipe, some p, _ => pipeclose p ff.writable
  | .inode, _, some k => do
    beginOp
    iput cfg k
    endOp
  | .none, _, _ => pure ()
  | _, _, _ => fail .fault

/-- Close a file. -/
def fileclose (f : ℕ) : K Unit := do
  let ff ← gets fun s => s.ftable f
  if ff.ref < 1 then
    panic .fileclose
  else if ff.ref - 1 > 0 then
    modifyFile f fun file => { file with ref := file.ref - 1 }
  else do
    modifyFile f fun file => { file with ref := 0, type := .none }
    fileRelease cfg ff

/-- `struct stat`. The buffer of `mode` gets ten characters. -/
structure Stat where
  type : InodeType
  ino : ℕ
  nlink : ℤ
  size : ℕ
  uid : ℤ
  gid : ℤ
  mode : List Char
deriving DecidableEq, Repr

/-- The text of the permissions, after the character of the type. -/
def modeText (mode : BitVec 16) : List Char :=
  (List.range 9).map fun i =>
    if mode.getLsbD (8 - i) then ['r', 'w', 'x'].getD (i % 3) '-' else '-'

/-- Copy stat information from an inode. -/
def stati (ip : Inode) : Stat where
  type := ip.d.type
  ino := ip.inum
  nlink := ip.d.nlink
  size := ip.d.size
  uid := ip.d.uid
  gid := ip.d.gid
  mode := (if ip.d.type = .dir then 'd' else '-') :: modeText ip.d.mode

/-- Metadata of a file. -/
def filestat (f : ℕ) : K (Option Stat) := do
  let file ← gets fun s => s.ftable f
  match file.type, file.ip with
  | .inode, some k => do
    ilock cfg k
    let ip ← inode k
    iunlock k
    pure (some (stati ip))
  | .inode, none => panic .ilock
  | _, _ => pure none

/-- Read from a file. -/
def fileread (f n : ℕ) : K (ℤ × List UInt8) := do
  let file ← gets fun s => s.ftable f
  if file.readable = false then
    pure (-1, [])
  else
    match file.type, file.pipe, file.ip with
    | .pipe, some p, _ => piperead p n
    | .inode, _, some k => do
      ilock cfg k
      let out ← readi cfg k file.off n
      when (0 < out.1)
        (modifyFile f fun file => { file with off := (file.off + out.1.toNat) % 2 ^ 32 })
      iunlock k
      pure out
    | .inode, _, none => panic .ilock
    | .none, _, _ => panic .fileread
    | _, _, _ => fail .fault

/-- The most bytes `filewrite` writes in one operation. -/
def writeMax : ℕ := ((MAXOPBLOCKS - 1 - 1 - 2) / 2) * 512

/-- One round of the loop of `filewrite`. -/
def filewriteRound (f k : ℕ) (src : List UInt8) : K ℤ := do
  beginOp
  ilock cfg k
  let off ← gets fun s => (s.ftable f).off
  let r ← writei cfg k src off
  when (0 < r)
    (modifyFile f fun file => { file with off := (file.off + r.toNat) % 2 ^ 32 })
  iunlock k
  endOp
  pure r

/-- The loop of `filewrite`. Every round writes at least one byte. -/
def filewriteLoop (f k : ℕ) : ℕ → List UInt8 → K Bool
  | 0, src => pure (src.length = 0)
  | fuel + 1, src =>
    if src.length = 0 then
      pure true
    else do
      let r ← filewriteRound cfg f k (src.take writeMax)
      if r < 0 then pure false
      else if r ≠ (src.take writeMax).length then panic .shortFilewrite
      else filewriteLoop f k fuel (src.drop writeMax)

/-- Write to a file. -/
def filewrite (f : ℕ) (src : List UInt8) : K ℤ := do
  let file ← gets fun s => s.ftable f
  if file.writable = false then
    pure (-1)
  else
    match file.type, file.pipe, file.ip with
    | .pipe, some p, _ => pipewrite p src
    | .inode, _, some k => do
      let done ← filewriteLoop cfg f k src.length src
      pure (if done then (src.length : ℤ) else -1)
    | .inode, _, none => if src.length = 0 then pure 0 else panic .ilock
    | .none, _, _ => panic .filewrite
    | _, _, _ => fail .fault

/-- Allocate a pipe and the two files of its ends. -/
def pipealloc (kalloc : Bool) : K (Option (ℕ × ℕ)) := do
  let first ← filealloc
  match first with
  | none => pure none
  | some f0 => do
    let second ← filealloc
    match second with
    | none => do
      fileclose cfg f0
      pure none
    | some f1 =>
      if kalloc then do
        let p ← gets Kernel.npipe
        update fun s => { s with npipe := p + 1,
                                 pipes := Function.update s.pipes p ⟨[], true, true⟩ }
        modifyFile f0 fun file =>
          { file with type := .pipe, readable := true, writable := false, pipe := some p }
        modifyFile f1 fun file =>
          { file with type := .pipe, readable := false, writable := true, pipe := some p }
        pure (some (f0, f1))
      else do
        fileclose cfg f0
        fileclose cfg f1
        pure none

end Xv6Uac
