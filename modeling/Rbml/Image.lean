import Mathlib.Data.List.Basic
import Rbml.Word

/-!
# Program files

The compiler writes its words to the program file with one `fwrite`, and the emulator reads them
into memory with one `fread`, so a word is four bytes in the order of the host, which is
little-endian. `wordAt` reads a word out of such bytes, and finds again what `imageOf` has written.
-/

namespace Rbml

/-- The bytes of a word in memory order -/
def bytesOfWord (w : Word) : List UInt8 :=
  [⟨w.extractLsb' 0 8⟩, ⟨w.extractLsb' 8 8⟩, ⟨w.extractLsb' 16 8⟩, ⟨w.extractLsb' 24 8⟩]

/-- The word that four bytes make, in memory order -/
def wordOfBytes (b₀ b₁ b₂ b₃ : UInt8) : Word :=
  b₃.toBitVec ++ b₂.toBitVec ++ b₁.toBitVec ++ b₀.toBitVec

/-- `fwrite(text, sizeof(*text), size, fp)` -/
def imageOf (words : List Word) : List UInt8 := words.flatMap bytesOfWord

/-- The word that bytes make at index `k`, where bytes past the end are 0 -/
def wordAt (bytes : List UInt8) (k : Nat) : Word :=
  wordOfBytes (bytes.getD (4 * k) 0) (bytes.getD (4 * k + 1) 0) (bytes.getD (4 * k + 2) 0)
    (bytes.getD (4 * k + 3) 0)

/-- A word is its bytes. -/
theorem wordOfBytes_bytesOfWord (w : Word) :
    wordOfBytes ⟨w.extractLsb' 0 8⟩ ⟨w.extractLsb' 8 8⟩ ⟨w.extractLsb' 16 8⟩
      ⟨w.extractLsb' 24 8⟩ = w := by
  unfold wordOfBytes
  ext i hi
  -- the place of a bit in its byte is counted from where the bytes below it end
  have hsecond : 8 ≤ i → 8 + (i - 8) = i := by omega
  have hthird : 16 ≤ i → 16 + (i - 8 - 8) = i := by omega
  have hfourth : 24 ≤ i → 24 + (i - 8 - 8 - 8) = i := by omega
  simp only [BitVec.getElem_append, BitVec.getElem_extractLsb']
  rw [← BitVec.getLsbD_eq_getElem hi]
  split
  · rw [Nat.zero_add]
  · split
    · rw [hsecond (by omega)]
    · split
      · rw [hthird (by omega)]
      · rw [hfourth (by omega)]

theorem bytesOfWord_length (w : Word) : (bytesOfWord w).length = 4 := rfl

theorem imageOf_length (words : List Word) : (imageOf words).length = 4 * words.length := by
  induction words with
  | nil => rfl
  | cons w words ih =>
    rw [imageOf, List.flatMap_cons, List.length_append, bytesOfWord_length, List.length_cons]
    rw [imageOf] at ih
    omega

/-- Reading finds what was written, and zeros behind it. -/
theorem wordAt_imageOf (words : List Word) (k : Nat) :
    wordAt (imageOf words) k = words.getD k 0 := by
  induction words generalizing k with
  | nil =>
    simp only [wordAt, imageOf, List.flatMap_nil, List.getD_nil]
    rfl
  | cons w words ih =>
    cases k with
    | zero => exact wordOfBytes_bytesOfWord w
    | succ k => exact ih k

end Rbml
