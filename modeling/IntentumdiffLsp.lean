import IntentumdiffLsp.Mirroring
import IntentumdiffLsp.Handshake
import IntentumdiffLsp.ServerTraffic
import IntentumdiffLsp.Disconnect
import IntentumdiffLsp.Wire
import IntentumdiffLsp.Lenses
import IntentumdiffLsp.Containment
import IntentumdiffLsp.Coalescing
import IntentumdiffLsp.Retention
import IntentumdiffLsp.Validation
import IntentumdiffLsp.Precedence
import IntentumdiffLsp.Autostart
import IntentumdiffLsp.Schemes
import IntentumdiffLsp.Naming
import IntentumdiffLsp.Responses
import IntentumdiffLsp.Agreement
import IntentumdiffLsp.Isolation
import IntentumdiffLsp.Bracket
import IntentumdiffLsp.Stderr
import IntentumdiffLsp.Percent
import IntentumdiffLsp.Announced
import IntentumdiffLsp.Joining
import IntentumdiffLsp.PathPrepend
import IntentumdiffLsp.Resolution
