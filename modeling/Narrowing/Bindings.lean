/-
Names bound to handles.

The bindings are kept in ascending order of their names, so that a name has
at most one, and bindings that agree on every name are equal.  Where a path
may not be reachable at all, `none` stands for it.
-/
import Narrowing.Handle

namespace Narrowing

/-- Names and what they are bound to, in ascending order of the names. -/
structure Bindings where
  entries : List (String × Handle)
  ascending : entries.Pairwise fun e e' => e.1 < e'.1
deriving DecidableEq

namespace Bindings

def empty : Bindings := ⟨[], .nil⟩

def get? (b : Bindings) (name : String) : Option Handle :=
  (b.entries.find? fun e => e.1 == name).map Prod.snd

/-- Put a binding into a list of bindings in ascending order. -/
def insertInto (name : String) (h : Handle) : List (String × Handle) → List (String × Handle)
  | [] => [(name, h)]
  | e :: es =>
    if name = e.1 then (name, h) :: es
    else if name < e.1 then (name, h) :: e :: es
    else e :: insertInto name h es

theorem mem_of_mem_insertInto {name : String} {h : Handle} {e : String × Handle}
    {es : List (String × Handle)} (he : e ∈ insertInto name h es) : e = (name, h) ∨ e ∈ es := by
  induction es with
  | nil => exact Or.inl (List.mem_singleton.mp he)
  | cons e' es ih =>
      unfold insertInto at he
      split at he
      · exact (List.mem_cons.mp he).imp_right (List.mem_cons_of_mem _)
      · split at he
        · exact List.mem_cons.mp he
        · rcases List.mem_cons.mp he with rfl | he
          · exact Or.inr List.mem_cons_self
          · exact (ih he).imp_right (List.mem_cons_of_mem _)

theorem ascending_insertInto {name : String} {h : Handle} {es : List (String × Handle)}
    (hes : es.Pairwise fun e e' => e.1 < e'.1) :
    (insertInto name h es).Pairwise fun e e' => e.1 < e'.1 := by
  induction es with
  | nil => exact List.pairwise_singleton _ _
  | cons e es ih =>
      obtain ⟨hfirst, hrest⟩ := List.pairwise_cons.mp hes
      unfold insertInto
      split
      · rename_i heq
        exact List.pairwise_cons.mpr ⟨fun e' he' => heq ▸ hfirst e' he', hrest⟩
      · rename_i hne
        split
        · rename_i hlt
          refine List.pairwise_cons.mpr ⟨fun e' he' => ?_, hes⟩
          rcases List.mem_cons.mp he' with rfl | he'
          · exact hlt
          · exact String.lt_trans hlt (hfirst e' he')
        · rename_i hge
          refine List.pairwise_cons.mpr ⟨fun e' he' => ?_, ih hrest⟩
          rcases mem_of_mem_insertInto he' with rfl | he'
          · exact Std.lt_of_le_of_ne (String.not_lt.mp hge) (Ne.symm hne)
          · exact hfirst e' he'

def insert (b : Bindings) (name : String) (h : Handle) : Bindings :=
  ⟨insertInto name h b.entries, ascending_insertInto b.ascending⟩

def erase (b : Bindings) (name : String) : Bindings :=
  ⟨b.entries.filter fun e => e.1 != name, b.ascending.filter _⟩

/-- Bind a name, or remove its binding when the handle is that of no node. -/
def set (b : Bindings) (name : String) (h : Handle) : Bindings :=
  if h = .none then b.erase name else b.insert name h

/-- The bindings of a list; of two with one name the later holds. -/
def ofList (es : List (String × Handle)) : Bindings :=
  es.foldl (fun b e => b.insert e.1 e.2) empty

def names (b : Bindings) : List String := b.entries.map Prod.fst

/-- The bindings on which two agree. -/
def join (a b : Bindings) : Bindings :=
  ⟨a.entries.filter fun e => b.get? e.1 == some e.2, a.ascending.filter _⟩

/-- The bindings of two paths that may be unreachable; an unreachable one adds nothing. -/
def join? : Option Bindings → Option Bindings → Option Bindings
  | none, b => b
  | a, none => a
  | some a, some b => some (a.join b)

def lines (b : Bindings) : List String :=
  b.entries.map fun e => e.1 ++ "=" ++ e.2.text

end Bindings

end Narrowing
