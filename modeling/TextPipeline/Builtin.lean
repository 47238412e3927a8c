/-!
The builtin functions by name, and the catalog in which a program looks them up.

A builtin takes the value of the pipeline, its subject, and as many further arguments as
its arity says.
-/

namespace TextPipeline

inductive Builtin
  | id | upper | lower | trim | append | prepend | replace | const | indent | trimIndent | wrap
  deriving DecidableEq, Repr

namespace Builtin

def all : List Builtin :=
  [id, upper, lower, trim, append, prepend, replace, const, indent, trimIndent, wrap]

/-- The name in a program text and in the imports of a module. -/
def name : Builtin → String
  | id => "id"
  | upper => "upper"
  | lower => "lower"
  | trim => "trim"
  | append => "append"
  | prepend => "prepend"
  | replace => "replace"
  | const => "const"
  | indent => "indent"
  | trimIndent => "trim_indent"
  | wrap => "wrap"

/-- The name in an error message. -/
def label : Builtin → String
  | id => "Id"
  | upper => "Upper"
  | lower => "Lower"
  | trim => "Trim"
  | append => "Append"
  | prepend => "Prepend"
  | replace => "Replace"
  | const => "Const"
  | indent => "Indent"
  | trimIndent => "TrimIndent"
  | wrap => "Wrap"

/-- The number of arguments beside the subject. -/
def arity : Builtin → Nat
  | id | upper | lower | trim | trimIndent => 0
  | append | prepend | const | indent => 1
  | replace | wrap => 2

/-- The subject and the arguments. -/
def operandCount (b : Builtin) : Nat := b.arity + 1

end Builtin

/-- A builtin as a program sees it: the name that calls it and the arguments it asks for. -/
structure Descriptor where
  name : String
  arity : Nat
  builtin : Builtin
  deriving DecidableEq, Repr

def Descriptor.operandCount (d : Descriptor) : Nat := d.arity + 1

def Builtin.descriptor (b : Builtin) : Descriptor := ⟨b.name, b.arity, b⟩

/-- The builtins a program may call. -/
abbrev Catalog := List Descriptor

namespace Catalog

def standard : Catalog := Builtin.all.map Builtin.descriptor

/-- Of two entries with one name the later one counts. -/
def find? (catalog : Catalog) (name : String) : Option Descriptor :=
  catalog.reverse.find? fun d => d.name = name

def contains (catalog : Catalog) (name : String) : Bool := (catalog.find? name).isSome

/-- The first entry for a builtin. -/
def entry? (catalog : Catalog) (b : Builtin) : Option Descriptor :=
  List.find? (fun d => d.builtin = b) catalog

end Catalog

end TextPipeline
