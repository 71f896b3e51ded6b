import Acidns.Wire.Name

/-!
# Types and classes of resource records

`rrtype/rrtype.go`: both are open 16-bit codes with named constants.
-/

namespace Acidns

abbrev RRType := UInt16

namespace RRType

def a : RRType := 1
def ns : RRType := 2
def cname : RRType := 5
def soa : RRType := 6
def ptr : RRType := 12
def hinfo : RRType := 13
def mx : RRType := 15
def txt : RRType := 16
def rp : RRType := 17
def afsdb : RRType := 18
def x25 : RRType := 19
def isdn : RRType := 20
def rt : RRType := 21
def nsap : RRType := 22
def nsapptr : RRType := 23
def loc : RRType := 29
def aaaa : RRType := 28
def srv : RRType := 33
def kx : RRType := 36
def cert : RRType := 37
def naptr : RRType := 35
def dname : RRType := 39
def apl : RRType := 42
def opt : RRType := 41
def ds : RRType := 43
def sshfp : RRType := 44
def ipseckey : RRType := 45
def rrsig : RRType := 46
def nsec : RRType := 47
def dnskey : RRType := 48
def dhcid : RRType := 49
def nsec3 : RRType := 50
def nsec3param : RRType := 51
def tlsa : RRType := 52
def smimea : RRType := 53
def hip : RRType := 55
def cds : RRType := 59
def cdnskey : RRType := 60
def openpgpkey : RRType := 61
def csync : RRType := 62
def zonemd : RRType := 63
def svcb : RRType := 64
def https : RRType := 65
def spf : RRType := 99
def nid : RRType := 104
def l32 : RRType := 105
def l64 : RRType := 106
def lp : RRType := 107
def eui48 : RRType := 108
def eui64 : RRType := 109
def uri : RRType := 256
def caa : RRType := 257
def amtrelay : RRType := 260
def resinfo : RRType := 261
def nxname : RRType := 128
def any : RRType := 255
def axfr : RRType := 252
def ixfr : RRType := 251
def tkey : RRType := 249

def typeNames : List (RRType × String) :=
  [(a, "A"), (ns, "NS"), (cname, "CNAME"), (soa, "SOA"), (ptr, "PTR"), (hinfo, "HINFO"), (mx, "MX"),
   (txt, "TXT"), (rp, "RP"), (afsdb, "AFSDB"), (x25, "X25"), (isdn, "ISDN"), (rt, "RT"),
   (nsap, "NSAP"), (nsapptr, "NSAP-PTR"), (loc, "LOC"), (aaaa, "AAAA"), (srv, "SRV"), (kx, "KX"),
   (cert, "CERT"), (naptr, "NAPTR"), (dname, "DNAME"), (apl, "APL"), (opt, "OPT"), (ds, "DS"),
   (sshfp, "SSHFP"), (ipseckey, "IPSECKEY"), (rrsig, "RRSIG"), (nsec, "NSEC"), (dnskey, "DNSKEY"),
   (dhcid, "DHCID"), (nsec3, "NSEC3"), (nsec3param, "NSEC3PARAM"), (tlsa, "TLSA"),
   (smimea, "SMIMEA"), (hip, "HIP"), (cds, "CDS"), (cdnskey, "CDNSKEY"), (openpgpkey, "OPENPGPKEY"),
   (csync, "CSYNC"), (zonemd, "ZONEMD"), (svcb, "SVCB"), (https, "HTTPS"), (spf, "SPF"),
   (nid, "NID"), (l32, "L32"), (l64, "L64"), (lp, "LP"), (eui48, "EUI48"), (eui64, "EUI64"),
   (uri, "URI"), (caa, "CAA"), (amtrelay, "AMTRELAY"), (resinfo, "RESINFO"), (nxname, "NXNAME"),
   (any, "ANY"), (axfr, "AXFR"), (ixfr, "IXFR"), (tkey, "TKEY")]

def string (t : RRType) : String := (typeNames.lookup t).getD s!"TYPE{t.toNat}"

end RRType

abbrev RRClass := UInt16

namespace RRClass

def classIN : RRClass := 1
def classCH : RRClass := 3
def classHS : RRClass := 4
def classNONE : RRClass := 254
def classANY : RRClass := 255

end RRClass

end Acidns
