import StackLang.Editor.Document
/-!
A session with an editor: the documents that are open, and what is published when they change.
-/

namespace StackLang

/-- The name under which remarks are published. -/
def serviceName : String := "stapel-lsp"

/-- A change of a document: its whole new text, or a part of it. -/
inductive Change where
  | whole (text : String)
  | part (text : String)
  deriving DecidableEq, Repr

/-- Remarks on a document, to be shown instead of all earlier ones. -/
structure Publication where
  uri : String
  remarks : List Remark
  deriving DecidableEq, Repr

/-- A session: the version that the service goes by, and the open documents. -/
structure Session where
  version : String := ""
  documents : Table String Document := .empty

namespace Session

def document? (s : Session) (uri : String) : Option Document :=
  s.documents.get? uri

def update (s : Session) (uri text : String) : Session × Publication :=
  let d := Document.analyze uri text
  ({ s with documents := s.documents.put uri d }, ⟨uri, d.remarks⟩)

/-- Takes changes of a document. Only whole texts are understood, so the last change counts. -/
def change (s : Session) (uri : String) (changes : List Change) : Session × Option Publication :=
  match changes.getLast? with
  | some (.whole text) => let (s, p) := s.update uri text; (s, some p)
  | _ => (s, none)

/-- Closes a document, on which there is then nothing to remark. -/
def close (s : Session) (uri : String) : Session × Publication :=
  ({ s with documents := s.documents.erase uri }, ⟨uri, []⟩)

end Session

end StackLang
