import Mathlib.Data.List.Basic

/-!
# Buffered output

A stream collects symbols in a buffer and hands them to a device when the buffer is full and when it is
closed. A device takes symbols up to its room and refuses the rest. The error indicator of the stream
is set where the device refused something, which a caller sees at the earliest when the buffer that
holds it is handed over.

What a write shows depends on how many of the symbols fill whole buffers (`pushed`). Where the device
has room for these, the write ends without an error, and closing the stream leaves as much of the symbols
as there is room for (`write_of_room`). Elsewhere the error is seen (`error_write`).
-/

namespace Rbml.Lib

variable {α : Type*}

/-- A device: what it has taken, and how much more it takes -/
structure Device (α : Type*) where
  contents : List α
  room : Nat

/-- A device takes what it has room for. -/
def Device.take (d : Device α) (l : List α) : Device α := ⟨d.contents ++ l.take d.room, d.room - l.length⟩

/-- A stream with a buffer for `n` symbols, which is never full between two operations -/
structure Stream (α : Type*) (n : Nat) where
  buffer : List α
  fits : buffer.length < n
  device : Device α
  error : Bool

variable {n : Nat}

/-- Hand symbols over to the device. Those that it refuses are lost. -/
def Stream.push (l : List α) (s : Stream α n) : Stream α n where
  buffer := []
  fits := Nat.zero_lt_of_lt s.fits
  device := s.device.take l
  error := s.error || decide (s.device.room < l.length)

/-- Write one symbol: a full buffer is handed over. -/
def Stream.put (a : α) (s : Stream α n) : Stream α n :=
  if h : (s.buffer ++ [a]).length < n then { s with buffer := s.buffer ++ [a], fits := h }
  else s.push (s.buffer ++ [a])

/-- Write symbols up to the first error -/
def Stream.write : List α → Stream α n → Stream α n
  | [], s => s
  | a :: l, s =>
    let s := s.put a
    if s.error then s else s.write l

/-- Hand over what is left in the buffer -/
def Stream.close (s : Stream α n) : Stream α n := s.push s.buffer

/-- How many of `m` symbols fill whole buffers of `n` -/
def pushed (n m : Nat) : Nat := n * (m / n)

theorem pushed_le (n m : Nat) : pushed n m ≤ m := Nat.mul_div_le m n

theorem pushed_of_lt {n m : Nat} (h : m < n) : pushed n m = 0 := by
  rw [pushed, Nat.div_eq_of_lt h, Nat.mul_zero]

theorem pushed_add {n : Nat} (h : 0 < n) (m : Nat) : pushed n (n + m) = n + pushed n m := by
  rw [pushed, Nat.add_div_left m h, Nat.mul_succ, Nat.add_comm, pushed]

theorem Stream.put_of_lt {s : Stream α n} {a : α} (h : s.buffer.length + 1 < n) :
    (s.put a).buffer = s.buffer ++ [a] ∧ (s.put a).device = s.device ∧ (s.put a).error = s.error := by
  have hfits : (s.buffer ++ [a]).length < n := by
    rw [List.length_append, List.length_singleton]
    exact h
  rw [Stream.put, dif_pos hfits]
  exact ⟨rfl, rfl, rfl⟩

theorem Stream.put_of_full {s : Stream α n} {a : α} (h : s.buffer.length + 1 = n) :
    s.put a = s.push (s.buffer ++ [a]) := by
  refine dif_neg fun hfits => ?_
  rw [List.length_append, List.length_singleton] at hfits
  omega

/-- The whole buffers of the symbols that are in the buffer or about to be written -/
def Stream.whole (s : Stream α n) (l : List α) : Nat := pushed n (s.buffer.length + l.length)

theorem Stream.whole_nil (s : Stream α n) : s.whole [] = 0 := pushed_of_lt s.fits

theorem Stream.whole_of_lt {s : Stream α n} {a : α} (h : s.buffer.length + 1 < n) (l : List α) :
    (s.put a).whole l = s.whole (a :: l) := by
  rw [whole, whole, (put_of_lt h).1, List.length_append, List.length_singleton, List.length_cons,
    Nat.add_assoc, Nat.add_comm 1]

/-- A full buffer is one of the whole buffers. -/
theorem Stream.whole_of_full {s : Stream α n} {a : α} (h : s.buffer.length + 1 = n) (l : List α) :
    s.whole (a :: l) = n + (s.put a).whole l := by
  have hbuffer : (s.put a).buffer = [] := by
    rw [put_of_full h]
    rfl
  rw [whole, whole, hbuffer, List.length_nil, Nat.zero_add, ← pushed_add (Nat.zero_lt_of_lt s.fits),
    List.length_cons]
  congr 1
  omega

/-- The whole buffers of a write are taken: there is no error, and closing the stream leaves as much
of the symbols as there is room for. -/
theorem Stream.write_of_room {s : Stream α n} (herror : s.error = false) (l : List α)
    (hroom : s.whole l ≤ s.device.room) :
    (s.write l).error = false ∧ (s.write l).close.device.contents =
      s.device.contents ++ (s.buffer ++ l).take s.device.room := by
  induction l generalizing s with
  | nil =>
    rw [List.append_nil]
    exact ⟨herror, rfl⟩
  | cons a l ih =>
    rcases Nat.lt_or_eq_of_le (Nat.succ_le_of_lt s.fits) with hlt | hfull
    · obtain ⟨hbuffer, hdevice, herror'⟩ := @put_of_lt _ _ s a hlt
      rw [herror] at herror'
      rw [write, herror', if_neg Bool.false_ne_true]
      obtain ⟨hok, hcontents⟩ := ih herror' (by rw [whole_of_lt hlt, hdevice]; exact hroom)
      refine ⟨hok, ?_⟩
      rw [hcontents, hbuffer, hdevice, List.append_assoc, List.singleton_append]
    · rw [whole_of_full hfull] at hroom
      have hlength : (s.buffer ++ [a]).length = n := by
        rw [List.length_append, List.length_singleton]
        exact hfull
      have herror' : (s.put a).error = false := by
        rw [put_of_full hfull, push, herror, hlength, Bool.false_or]
        exact decide_eq_false (by omega)
      have hdevice : (s.put a).device =
          ⟨s.device.contents ++ (s.buffer ++ [a]), s.device.room - n⟩ := by
        rw [put_of_full hfull, push, Device.take, hlength, List.take_of_length_le (by omega)]
      have hbuffer : (s.put a).buffer = [] := by
        rw [put_of_full hfull]
        rfl
      rw [write, herror', if_neg Bool.false_ne_true]
      obtain ⟨hok, hcontents⟩ := ih herror' (by rw [hdevice]; show _ ≤ s.device.room - n; omega)
      refine ⟨hok, ?_⟩
      have htake : (s.buffer ++ a :: l).take s.device.room =
          (s.buffer ++ [a]) ++ l.take (s.device.room - n) := by
        rw [List.append_cons, List.take_append, hlength, List.take_of_length_le (by omega)]
      rw [hcontents, hdevice, hbuffer, htake, List.nil_append]
      exact List.append_assoc _ _ _

/-- Some of the whole buffers are refused: the write ends with an error. -/
theorem Stream.error_write {s : Stream α n} (l : List α) (hroom : s.device.room < s.whole l) :
    (s.write l).error = true := by
  induction l generalizing s with
  | nil =>
    rw [whole_nil] at hroom
    exact absurd hroom (Nat.not_lt_zero _)
  | cons a l ih =>
    rw [write]
    cases herror : (s.put a).error with
    | true =>
      rw [if_pos rfl]
      exact herror
    | false =>
      rw [if_neg Bool.false_ne_true]
      apply ih
      rcases Nat.lt_or_eq_of_le (Nat.succ_le_of_lt s.fits) with hlt | hfull
      · rw [whole_of_lt hlt, (put_of_lt hlt).2.1]
        exact hroom
      · rw [whole_of_full hfull] at hroom
        have hlength : (s.buffer ++ [a]).length = n := by
          rw [List.length_append, List.length_singleton]
          exact hfull
        rw [put_of_full hfull, push, hlength] at herror
        have htaken := of_decide_eq_false (Bool.or_eq_false_iff.mp herror).2
        rw [put_of_full hfull] at hroom ⊢
        show s.device.room - (s.buffer ++ [a]).length < _
        omega

end Rbml.Lib
