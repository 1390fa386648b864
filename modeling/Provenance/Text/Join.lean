/-!
# Joining texts
-/

namespace Provenance

def joinWith (separator : String) : List String → String
  | [] => ""
  | s :: rest => rest.foldl (fun acc t => acc ++ separator ++ t) s

end Provenance
