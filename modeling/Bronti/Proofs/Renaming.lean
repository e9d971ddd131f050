import Bronti.Proofs.Observation
import Mathlib.Logic.Equiv.Basic

/-!
New names. Programs do not depend on the spelling of their variables and functions, and the names
of variables have nothing to do with those of functions: each may be renamed on its own.
-/
namespace Bronti

/-- A tree with new names for its variables, and new names of their own for its functions. -/
def Ast.rename (vars funs : String → String) : Ast → Ast := rewrite (renameOwn vars funs)

theorem Ast.rename_eq (vars funs : String → String) (a : Ast) :
    a.rename vars funs = (a.mapChildren (rename vars funs)).renameOwn vars funs :=
  rewrite_eq _ a

theorem Ast.span_rename (vars funs : String → String) (a : Ast) :
    (a.rename vars funs).span = a.span := by
  rw [rename_eq, span_renameOwn, span_mapChildren]

theorem Ast.children_rename (vars funs : String → String) (a : Ast) :
    (a.rename vars funs).children = a.children.map (rename vars funs) := by
  rw [rename_eq, children_renameOwn, children_mapChildren]

theorem unique_of_injective {f : String → String} (hf : f.Injective) :
    Relator.BiUnique fun x y => y = f x :=
  ⟨fun _ _ _ h h' => hf (h.symm.trans h'), fun _ _ _ h h' => h.trans h'.symm⟩

section Renaming

variable {vars funs : String → String}

/-- Trees that are alike but for their names. -/
def Likeness.renaming (hv : vars.Injective) (hf : funs.Injective)
    (hb : funs builtinName = builtinName) : Likeness where
  late := False
  vars x y := y = vars x
  funs x y := y = funs x
  spans := Eq
  tree a b := b = a.rename vars funs
  vars_unique := unique_of_injective hv
  funs_unique := unique_of_injective hf
  builtin_iff := by
    rintro x _ rfl
    rw [← hf.eq_iff, hb]
  span_rel := by
    rintro a _ rfl
    exact (a.span_rename vars funs).symm

theorem renaming_matched (hv : vars.Injective) (hf : funs.Injective)
    (hb : funs builtinName = builtinName) (depth : Nat) (a : Ast) :
    (Likeness.renaming hv hf hb).correspondence.Matched depth a (a.rename vars funs) := by
  rw [Ast.rename_eq]
  refine Correspondence.matched_mapChildren trivial (fun _ _ => rfl) (fun _ => rfl) (fun _ => rfl)
    (fun _ _ _ => rfl) fun params body _ _ => ⟨?_, rfl⟩
  exact forall₂_map_right fun _ _ => rfl

/-- A program whose variables and functions get new names, one to one, except that the function that
is built in keeps its name, ends as before and as soon: with the same code, or with an error of the
same kind on the same line, and with the same output. -/
theorem renaming_unobservable (hv : vars.Injective) (hf : funs.Injective)
    (hb : funs builtinName = builtinName) (steps : Nat) (tracing : Bool) (tree : Ast) :
    (evaluate steps tracing (tree.rename vars funs)).seen Stop.kindAndLine =
      (evaluate steps tracing tree).seen Stop.kindAndLine := by
  let l := Likeness.renaming hv hf hb
  have hrespects : l.correspondence.Respects (eval steps) (eval steps) := by
    refine Correspondence.eval_respects ?_ (Nat.le_refl steps) (.inr rfl)
    rintro depth a _ rfl
    exact renaming_matched hv hf hb depth a
  have hchildren : List.Forall₂ l.tree tree.children (tree.rename vars funs).children := by
    rw [Ast.children_rename]
    exact forall₂_map_right fun _ _ => rfl
  have htied := l.evaluate_tied hrespects tracing tree (tree.rename vars funs) hchildren
  exact (htied.seen_eq fun _ _ h => h.kindAndLine_eq).symm

end Renaming

/-- A program in which a variable and a function share a name, and a call prints and then divides by
zero: two of its variables trade names, and so do two of its functions, but with other ones. -/
theorem shared_spelling_unobservable :
    Function.Injective (Equiv.swap "x" "y") ∧ Function.Injective (Equiv.swap "x" "g") ∧
      Equiv.swap "x" "g" builtinName = builtinName ∧
      (evaluate 20 false ((Ast.program [.block
        [.declaration "x" (some (.literal "3" none)) none,
          .function "x" ["y"] (.block
            [.statement (.call "println" [.reference "x" none, .reference "y" none] none) none,
              .result (.operation (.reference "y" none) "/" (.literal "0" none)
                (some ⟨"", 2, 5, ""⟩)) none] none) none,
          .statement (.call "x" [.literal "4" none] none) none] none] none).rename
            (Equiv.swap "x" "y") (Equiv.swap "x" "g"))).seen Stop.kindAndLine =
        some (.error (.ok (.divisionByZero, some 2)), "3 4\n") := by
  refine ⟨Equiv.injective _, Equiv.injective _, by decide, ?_⟩
  rw [renaming_unobservable (Equiv.injective _) (Equiv.injective _) (by decide)]
  decide +kernel

end Bronti
