/-!
# Words

Positions are signed numbers of 64 bits. `Word.wrap` takes a sum or product back into their range;
a number already in it stays as it is.
-/

namespace TemplateCompiler.Word

def count : Nat := 18446744073709551616

def largest : Int := 9223372036854775807

def smallest : Int := -9223372036854775808

/-- The word that differs from `n` by a multiple of `count`. -/
def wrap (n : Int) : Int := n.bmod count

theorem wrap_eq_self {n : Int} (lower : smallest ≤ n) (upper : n ≤ largest) : wrap n = n :=
  Int.bmod_eq_of_le (by simp only [count, smallest] at *; omega)
    (by simp only [count, largest] at *; omega)

end TemplateCompiler.Word
