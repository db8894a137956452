/-!
# Version

Which version of the engine this is, as programs announce it.
-/

namespace Plexus

def version : String := "1.0.0"

end Plexus
