import Acidns.Authoritative.Answers
import Acidns.Authoritative.Coexistence
import Acidns.Authoritative.Origin
import Acidns.Authoritative.Prereqs
import Acidns.Authoritative.Snapshot
import Acidns.Authoritative.StreamAxfr
import Acidns.Client.Udp
import Acidns.Cookies.Middleware
import Acidns.Dnssec.CanonicalForm
import Acidns.Dnssec.Downgrade
import Acidns.Dnssec.NameOrder
import Acidns.Forward.Cached
import Acidns.Forward.Honest
import Acidns.Mdns.Probe
import Acidns.Recursive.Bailiwick
import Acidns.Recursive.Draining
import Acidns.Recursive.Lifetime
import Acidns.Recursive.Referral
import Acidns.Recursive.SortKey
import Acidns.Recursive.Validated
import Acidns.Recursive.WarmCold
import Acidns.Server.Rrl
import Acidns.Sig0.Replay
import Acidns.Stream.Framing
import Acidns.Stream.KeepAlive
import Acidns.Transfer.Completion
import Acidns.Transfer.Continuity
import Acidns.Transfer.Honest
import Acidns.Tsig.Binding
import Acidns.Zonefile.Generate
import Acidns.Recursive.Nsec3Soundness
import Acidns.Zonefile.CharString
import Acidns.Dnssec.Base32
import Acidns.Dnscrypt.Replay
