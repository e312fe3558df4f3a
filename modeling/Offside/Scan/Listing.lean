import Offside.Scan.Scanner
import Offside.Text.Quoted

/-!
The token listing: one line for each token with its location, its kind and its text in quotes. A
listing that shows indentation begins with that of the first line.
-/

namespace Offside.Listing

def initial (flags : Flags) : ScanState := if flags.indent then .lineStart else .gap

def line (s : Source) (e : Entry) : String :=
  let shown := String.ofList (Text.quote (Utf8.decode (s.text e.token)))
  e.location.render ++ " " ++ e.token.tag.name ++ " " ++ shown ++ "\n"

def render (s : Source) (flags : Flags) : String :=
  String.join (((Scanner.ofSource flags s).entriesFrom (fun _ => false) (initial flags)).map (line s))

end Offside.Listing
