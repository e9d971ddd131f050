/-!
Lists of names, such as the parameters of a function.
-/
namespace Bronti

/-- The names that occur again, in the order of their second occurrence; `seen` precede them. -/
def repeatedFrom (seen repeated : List String) : List String → List String
  | [] => repeated.reverse
  | x :: xs =>
    if x ∈ seen ∧ x ∉ repeated then repeatedFrom (x :: seen) (x :: repeated) xs
    else repeatedFrom (x :: seen) repeated xs

/-- The names that occur more than once, in the order of their second occurrence. -/
def repeated (names : List String) : List String := repeatedFrom [] [] names

end Bronti
