import Singletons.Document
import Singletons.Logging.Sink
/-!
# What others answer

Others load documents, read numbers and open the files of sinks. Nothing is known of what they
answer, but that it does not change while a program runs.
-/

namespace Singletons.Logging

structure Host where
  /-- The document that a file is loaded as. -/
  files : String → Option Document
  /-- The size that a text is read as. -/
  number? : String → Option Nat
  /-- What is said of a sink whose file cannot be opened. -/
  obstacle? : Sink → Option String
  deriving Inhabited

end Singletons.Logging
