import Mathlib.Data.List.Basic

/-!
# Buffered streams over a file

A stream is the bytes of its file, the place at which the buffer goes on, and what is still in
the buffer. How much of a write leaves the buffer at once is open. The file can also be cut, or
filled up, behind the stream's back. A file that is written from its beginning, cut to the
length of what was written and flushed then holds just that, whatever it held before and
however much left the buffer before the cut (`rewrite_content`).
-/

set_option autoImplicit false

namespace EyaKV.Base

/-- A stream over a file. -/
structure Stream (β : Type*) where
  content : List β
  pos : Nat := 0
  pending : List β := []

namespace Stream

variable {β : Type*}

section Operations

variable [Inhabited β]

/-- A file of another length: its end is cut off, or filled up. -/
def resized (content : List β) (n : Nat) : List β :=
  content.take n ++ List.replicate (n - content.length) default

/-- Bytes in place of those from a position on; a gap before the position is filled up. -/
def overwrite (content : List β) (pos : Nat) : List β → List β
  | [] => content
  | b :: data => resized content pos ++ (b :: data) ++ content.drop (pos + (data.length + 1))

/-- The buffer goes to the file. -/
def flush (s : Stream β) : Stream β :=
  { content := overwrite s.content s.pos s.pending, pos := s.pos + s.pending.length }

/-- Another position; the buffer is flushed first. -/
def seek (s : Stream β) (pos : Nat) : Stream β := { s.flush with pos }

/-- Data into the buffer, of which the first `k` bytes go to the file at once. -/
def write (s : Stream β) (k : Nat) (data : List β) : Stream β :=
  let buffer := s.pending ++ data
  { content := overwrite s.content s.pos (buffer.take k)
    pos := s.pos + (buffer.take k).length
    pending := buffer.drop k }

/-- The file gets another length; the buffer is left alone. -/
def truncate (s : Stream β) (n : Nat) : Stream β := { s with content := resized s.content n }

end Operations

section Rewriting

variable [Inhabited β]

theorem length_resized (content : List β) (n : Nat) : (resized content n).length = n := by
  rw [resized, List.length_append, List.length_take, List.length_replicate]
  omega

/-- What stands within the new length stays. -/
theorem take_resized {content : List β} {m n : Nat} (hmn : m ≤ n) (hm : m ≤ content.length) :
    (resized content n).take m = content.take m := by
  rw [resized, List.take_append_of_le_length (by rw [List.length_take]; omega), List.take_take,
    Nat.min_eq_left hmn]

theorem overwrite_eq {content : List β} {pos : Nat} (h : pos ≤ content.length) (data : List β) :
    overwrite content pos data = content.take pos ++ data ++ content.drop (pos + data.length) := by
  cases data with
  | nil => simp [overwrite]
  | cons b data =>
      have hpad : resized content pos = content.take pos := by
        rw [resized, Nat.sub_eq_zero_of_le h, List.replicate_zero, List.append_nil]
      rw [overwrite, hpad, List.length_cons]

/-- **Rewriting a file.** From the beginning, with the cut before the flush. -/
theorem rewrite_content (s : Stream β) (k : Nat) (data : List β) :
    (((s.seek 0).write k data).truncate data.length).flush.content = data := by
  -- what has left the buffer stands at the beginning of the file
  obtain ⟨c, hc⟩ : ∃ c, ((s.seek 0).write k data).content = data.take k ++ c :=
    ⟨s.flush.content.drop (0 + (data.take k).length), by
      simp only [write, seek, flush, List.nil_append, overwrite_eq (Nat.zero_le _),
        List.take_zero]⟩
  have hpos : ((s.seek 0).write k data).pos = (data.take k).length := by
    simp [write, seek, flush]
  have hpending : ((s.seek 0).write k data).pending = data.drop k := by
    simp [write, seek, flush]
  have hle : (data.take k).length ≤ data.length := List.length_take_le' k data
  have hkept : (resized (data.take k ++ c) data.length).take (data.take k).length =
      data.take k := by
    rw [take_resized hle (by rw [List.length_append]; omega), List.take_left]
  -- the rest of the data ends where the file has been cut
  have hend : (resized (data.take k ++ c) data.length).drop
      ((data.take k).length + (data.drop k).length) = [] := by
    apply List.drop_eq_nil_of_le
    rw [length_resized, List.length_take, List.length_drop]
    omega
  simp only [flush, truncate, hc, hpos, hpending]
  rw [overwrite_eq (by rw [length_resized]; exact hle), hkept, hend, List.append_nil,
    List.take_append_drop]

end Rewriting

end Stream

end EyaKV.Base
