import Mathlib.Data.List.Flatten

/-!
# How a name finds a column

A `FROM` clause offers relations, each under a name of one or more parts and with its
columns. A select list offers output columns. A reference without a qualifier looks at
the output columns first and then at all relations; a qualified one looks only at the
relations that answer to its qualifier. It finds a column when exactly one fits.
-/

set_option autoImplicit false

namespace Leibrix.NameScopes
open List

structure Column (ν σ : Type) where
  name : Option ν
  source : Option σ

structure Relation (ν σ : Type) where
  names : List ν
  columns : List (Column ν σ)

structure Ref (ν : Type) where
  qualifier : List ν
  column : ν

structure Env (ν σ : Type) where
  outs : List (Column ν σ)
  scope : List (Relation ν σ)

variable {ν σ : Type}

def columnsOf (scope : List (Relation ν σ)) : List (Column ν σ) := scope.flatMap Relation.columns

def only : List (Column ν σ) → Option σ
  | [column] => column.source
  | _ => none

section Lookup

variable [DecidableEq ν]

/-- A qualifier may leave out the first parts of a relation's name. -/
def Relation.answers (R : Relation ν σ) (qualifier : List ν) : Bool :=
  decide (qualifier <:+ R.names)

def called (name : ν) (columns : List (Column ν σ)) : List (Column ν σ) :=
  columns.filter fun column => decide (column.name = some name)

def Env.candidates (env : Env ν σ) (r : Ref ν) : List (Column ν σ) :=
  if r.qualifier.isEmpty then
    if (called r.column env.outs).isEmpty then called r.column (columnsOf env.scope)
    else called r.column env.outs
  else called r.column (columnsOf (env.scope.filter (·.answers r.qualifier)))

def Env.lookup (env : Env ν σ) (r : Ref ν) : Option σ := only (env.candidates r)

end Lookup

end Leibrix.NameScopes
