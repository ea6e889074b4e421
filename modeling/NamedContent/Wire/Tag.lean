/-!
The tag bytes of the wire form.
-/

namespace NamedContent.Wire.Tag

abbrev close : UInt8 := 0x00
abbrev interest : UInt8 := 0x01
abbrev name : UInt8 := 0x02
abbrev component : UInt8 := 0x03
abbrev prefixCount : UInt8 := 0x04
abbrev additional : UInt8 := 0x05
abbrev publisherKey : UInt8 := 0x06
abbrev publisherCertificate : UInt8 := 0x07
abbrev publisherIssuerKey : UInt8 := 0x08
abbrev publisherIssuerCertificate : UInt8 := 0x09
abbrev exclude : UInt8 := 0x0a
abbrev any : UInt8 := 0x0b
abbrev order : UInt8 := 0x0c
abbrev origin : UInt8 := 0x0d
abbrev scope : UInt8 := 0x0e
abbrev count : UInt8 := 0x0f
abbrev nonce : UInt8 := 0x10
abbrev responseFilter : UInt8 := 0x11

end NamedContent.Wire.Tag
