import Mathlib
import Treewalk.Sink

/-!
# What a sink stores

A sink stores the bytes that it is given as far as there is room for them (`Sink.write_some`), and it makes
no difference to it in how many writes it is given them (`Sink.write_append`).
-/

namespace Treewalk

/-! ## The first bytes of a text -/

/-- The first `N` bytes of output and what is added to it. -/
theorem extract_append_of_size_le {w : ByteArray} {N : Nat} (hw : w.size ≤ N) (bytes : ByteArray) :
    (w ++ bytes).extract 0 N = w ++ bytes.extract 0 (N - w.size) := by
  have hself : w.extract 0 N = w := by
    rw [← Nat.max_eq_left hw]
    exact ByteArray.extract_zero_max_size
  rw [ByteArray.extract_append, Nat.zero_sub, hself]

/-- What is appended does not show among the first `N` bytes, if there are so many already. -/
theorem extract_append_of_le_size {w : ByteArray} {N : Nat} (hw : N ≤ w.size) (bytes : ByteArray) :
    (w ++ bytes).extract 0 N = w.extract 0 N := by
  rw [ByteArray.extract_append, Nat.zero_sub, Nat.sub_eq_zero_of_le hw, ByteArray.extract_same,
    ByteArray.append_empty]

/-! ## Writes -/

namespace Sink

/-- A text that is written to output without limit is written in full. -/
theorem write_of_room {sink : Sink} (h : sink.room = none) (bytes : ByteArray) :
    sink.write bytes = (.ok (), ⟨sink.written ++ bytes, none⟩) := by
  unfold Sink.write
  rw [h]

/-- **A write stores what there is room for**, and succeeds if that is all. -/
theorem write_some (stored bytes : ByteArray) (n : Nat) : Sink.write ⟨stored, some n⟩ bytes =
    (if bytes.size ≤ n then .ok () else .error ⟨⟩,
      ⟨stored ++ bytes.extract 0 (min n bytes.size), some (n - bytes.size)⟩) := by
  by_cases hfits : bytes.size ≤ n
  · simp [write, hfits]
  · simp [write, hfits, Nat.le_of_not_le hfits]

/-- **A sink does not see where one write ends and the next begins.** -/
theorem write_append (sink : Sink) (a b : ByteArray) : sink.write (a ++ b) =
    match sink.write a with
    | (.ok _, sink) => sink.write b
    | (.error e, sink) => (.error e, sink) := by
  obtain ⟨stored, room⟩ := sink
  cases room with
  | none => simp [write, ByteArray.append_assoc]
  | some n =>
    by_cases hfits : a.size ≤ n
    · -- the first write fits, and the second has the room that is left
      have hcut := extract_append_of_size_le hfits b
      have hsize : (a ++ b).size ≤ n ↔ b.size ≤ n - a.size := by
        rw [ByteArray.size_append]
        omega
      have hroom : n - (a ++ b).size = n - a.size - b.size := by
        rw [ByteArray.size_append]
        omega
      simp only [write, hfits, if_true, hsize, hroom, hcut, ByteArray.append_assoc]
    · have hboth : ¬(a ++ b).size ≤ n := by
        rw [ByteArray.size_append]
        omega
      have hcut := extract_append_of_le_size (Nat.le_of_not_le hfits) b
      simp only [write, hfits, hboth, if_false, hcut]

end Sink

end Treewalk
