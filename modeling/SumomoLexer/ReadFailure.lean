/-! # Failures to read

A failure to read gives the reason in words and by number, as operating systems do.
-/
namespace SumomoLexer
set_option autoImplicit false

structure ReadFailure where
  reason : String
  number : Nat
deriving DecidableEq, Repr

namespace ReadFailure

def notFound : ReadFailure := ⟨"No such file or directory", 2⟩

def notFolder : ReadFailure := ⟨"Not a directory", 20⟩

def isFolder : ReadFailure := ⟨"Is a directory", 21⟩

def nameTooLong : ReadFailure := ⟨"File name too long", 36⟩

def permissionDenied : ReadFailure := ⟨"Permission denied", 13⟩

/-- The failure with this number; `reason` gives the words for it if they are not known here. -/
def ofNumber (number : Nat) (reason : String) : ReadFailure :=
  let known := [notFound, permissionDenied, notFolder, isFolder, nameTooLong]
  (known.find? (·.number == number)).getD ⟨reason, number⟩

def text (f : ReadFailure) : String := s!"{f.reason} (os error {f.number})"

end ReadFailure
end SumomoLexer
