namespace Trieste
set_option autoImplicit true

/-- A token definition. Names are registered once, so two tokens are the same definition
exactly when they are equal. -/
structure Token where
  name : String
  fl : Nat := 0
  deriving DecidableEq, Repr

namespace Token

def has (t : Token) (f : Nat) : Bool := t.fl &&& f != 0

end Token

namespace Flag

def print : Nat := 1 <<< 0
def symtab : Nat := 1 <<< 1
def defbeforeuse : Nat := 1 <<< 2
def shadowing : Nat := 1 <<< 3
def lookup : Nat := 1 <<< 4
def lookdown : Nat := 1 <<< 5
def internal : Nat := 1 <<< 6

end Flag

namespace Token

def top : Token := ⟨"top", Flag.symtab⟩
def directory : Token := ⟨"directory", 0⟩
def file : Token := ⟨"file", 0⟩
def group : Token := ⟨"group", 0⟩
def invalid : Token := ⟨"invalid", Flag.internal⟩
def seq : Token := ⟨"seq", Flag.internal⟩
def lift : Token := ⟨"lift", Flag.internal⟩
def noChange : Token := ⟨"nochange", Flag.internal⟩
def reapply : Token := ⟨"reapply", Flag.internal⟩
def error : Token := ⟨"error", Flag.internal⟩
def errorMsg : Token := ⟨"errormsg", Flag.print ||| Flag.internal⟩
def errorAst : Token := ⟨"errorast", Flag.internal⟩

end Token

end Trieste
