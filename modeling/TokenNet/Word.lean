/-!
# Machine words

The numbers of tokens and of maps are kept in machine words of 64 bits.  A word that is full starts again at zero, so a
sum in words is the sum up to a multiple of `wordSize`: `toWord_add_toWord`.  Numbers that fit are kept as they are:
`toWord_of_lt`.
-/

namespace TokenNet

/-- The least number that does not fit into a word. -/
def wordSize : Nat := 0x10000000000000000

/-- What a word keeps of a number. -/
def toWord (n : Nat) : Nat := n % wordSize

theorem toWord_of_lt {n : Nat} (h : n < wordSize) : toWord n = n := Nat.mod_eq_of_lt h

@[simp]
theorem toWord_zero : toWord 0 = 0 := rfl

/-- Words that are added give the word of the sum. -/
theorem toWord_add_toWord (m n : Nat) : toWord (toWord m + toWord n) = toWord (m + n) := (Nat.add_mod m n wordSize).symm

theorem toWord_toWord_add (m n : Nat) : toWord (toWord m + n) = toWord (m + n) := Nat.mod_add_mod m wordSize n

end TokenNet
